import Nexo.System.Runs
import Nexo.Lib.Local
import Nexo.Store.Roles
import Mathlib.Logic.Relation

/-!
# A removal, from its call to its return

What the history says about `Kick` is that it commits the removal of its target or nothing. Here one
call is followed through all its steps, in runs in which roles change only under the lock of the
group's conversation: where it decides, whether it removes or refuses, it holds that lock, and it
decides by the rule `MayKick` on the tables as they are committed *at that moment* — although the
group row was read before the transaction and the statements in it ran among the steps of others.
-/

namespace Nexo

open Relational Errcode List

/-- **The rule**: the operator is at least an admin, the target is a member and not the owner, and
an admin does not remove admins. -/
def MayKick (d : Db) (groupId op target : String) : Prop :=
  ∃ g o m, d.groups.get groupId = some g ∧ d.members.get (groupId, op) = some o ∧
    d.members.get (groupId, target) = some m ∧ roleAdmin ≤ o.role ∧ target ≠ g.ownerId ∧
    ¬ (o.role = roleAdmin ∧ roleAdmin ≤ m.role)

/-! ### The transaction by itself -/

section Transaction

variable {v d : Db} {ks : List Key} {groupId op u : String} {α : Type} {g : Group}

theorem runs_query {q : Query} {f : Except StoreErr q.Val → Call α} {E : Ends sig α}
    {Q : α → Db → List Key → Prop} (hr : Settled (Stmt.locks (.query q) ++ ks) (.query q))
    (h : exactly.runs E Q (f (q.exec v)) v (Stmt.locks (.query q) ++ ks))
    (hfail : exactly.runs E Q (f (.error .failed)) v ks) :
    exactly.runs E Q (query q >>= f) v ks := by
  refine ⟨hr, ?_, hfail⟩
  rintro _ rfl
  exact h

theorem runs_update {x : Update} {f : Except StoreErr x.Val → Call α} {E : Ends sig α}
    {Q : α → Db → List Key → Prop} {r : Except StoreErr x.Val} {v' : Db}
    (hr : x.needs ⊆ Stmt.locks (.update x) ++ ks) (hexec : x.exec v = (r, v'))
    (h : exactly.runs E Q (f r) v' (Stmt.locks (.update x) ++ ks))
    (hfail : exactly.runs E Q (f (.error .failed)) v ks) :
    exactly.runs E Q (update x >>= f) v ks := by
  refine ⟨⟨hr, nofun⟩, ?_, hfail⟩
  rintro _ rfl
  have hr' : (Stmt.exec (.update x) v).1 = r := congrArg Prod.fst hexec
  have hv' : (Stmt.exec (.update x) v).2 = v' := congrArg Prod.snd hexec
  rw [hr']
  exact hv' ▸ h

/-- `LockConversation` returns the locked row and holds its key, or the transaction fails. -/
theorem runs_lockConversation {id g : String} {typ : Int} {now : Time}
    {Q : Except StoreErr Conversation → Db → List Key → Prop}
    (h : Q (.ok (v.lockedRow id typ g now)) (v.insertConversationIfMissing id typ g now)
      (.conv id :: ks))
    (hfail : ∀ e v' ks', Q (.error e) v' ks') :
    exactly.runs .none Q (lockConversation id typ g now) v ks := by
  refine runs_update (nil_subset _) rfl ?_ (hfail _ _ _)
  refine runs_query (f := Prog.ret) ⟨mem_cons_self, nofun⟩ ?_ (hfail _ _ _)
  have hrow : Query.exec (v.insertConversationIfMissing id typ g now) (.lockConversation id) =
      .ok (v.lockedRow id typ g now) := by
    rw [Query.exec, Db.get_insertConversationIfMissing, if_pos rfl]
    rfl
  rw [hrow]
  exact h

/-- `member` under the lock returns the row as it is. -/
theorem runs_member {Q : Except Err GroupMember → Db → List Key → Prop}
    (hk : .conv (Conv.group groupId) ∈ ks)
    (hsome : ∀ m, v.members.get (groupId, u) = some m → Q (.ok m) v ks)
    (hnone : v.members.get (groupId, u) = none → Q (.error errNotGroupMember) v ks)
    (hfail : Q (.error (errStoreFailed.wrap (.store .failed))) v ks) :
    exactly.runs .none Q (Group.member groupId u) v ks := by
  refine runs_query ⟨hk, nofun⟩ ?_ hfail
  rcases hm : v.members.get (groupId, u) with - | m
  · have hres : Query.exec v (.getGroupMember groupId u) = .error .notFound := by
      rw [Query.exec, hm]
      rfl
    rw [hres]
    exact hnone hm
  · have hres : Query.exec v (.getGroupMember groupId u) = .ok m := by
      rw [Query.exec, hm]
      rfl
    rw [hres]
    exact hsome m hm

/-- An error that the call reports as a failure of the store. -/
def Err.Failed (err : Err) : Prop := (err.or errStoreFailed).is errStoreFailed

/-- The rule, once the rows are known. -/
theorem mayKick_iff {o m : GroupMember} (hg : d.groups.get groupId = some g)
    (ho : d.members.get (groupId, op) = some o) (hm : d.members.get (groupId, u) = some m) :
    MayKick d groupId op u ↔
      roleAdmin ≤ o.role ∧ u ≠ g.ownerId ∧ ¬ (o.role = roleAdmin ∧ roleAdmin ≤ m.role) := by
  simp [MayKick, hg, ho, hm]

theorem not_mayKick_of_op (ho : ∀ o, d.members.get (groupId, op) = some o → o.role < roleAdmin) :
    ¬ MayKick d groupId op u := by
  rintro ⟨_, o, _, -, ho', -, hrole, -⟩
  have := ho o ho'
  omega

theorem not_mayKick_of_target (hm : d.members.get (groupId, u) = none) :
    ¬ MayKick d groupId op u := by
  rintro ⟨_, _, m, -, -, hm', -⟩
  rw [hm'] at hm
  cases hm

/-- The checks let the target pass exactly when the rule allows the removal. -/
theorem runs_checkKick {s : Int} (hk : .conv (Conv.group g.id) ∈ ks)
    (hg : d.groups.get g.id = some { g with status := s }) (hv : v.members = d.members) :
    exactly.runs .none (fun r v' ks' ↦ v' = v ∧ ks' = ks ∧ match r with
      | .ok t => t = u ∧ MayKick d g.id op u
      | .error err => err.Failed ∨ ¬ MayKick d g.id op u) (Group.checkKick g op u) v ks := by
  refine Isolation.runs_bind (runs_member hk (fun o ho ↦ ?_) (fun ho ↦ ?_) ?_)
  · rw [hv] at ho
    refine Isolation.runs_ite (fun hrole ↦ ?_) fun hrole ↦ ?_
    · refine ⟨rfl, rfl, .inr (not_mayKick_of_op fun o' ho' ↦ ?_)⟩
      obtain rfl := Option.some.inj (ho.symm.trans ho')
      exact hrole
    refine Isolation.runs_bind (runs_member hk (fun m hm ↦ ?_) (fun hm ↦ ?_) ?_)
    · rw [hv] at hm
      -- the stored spelling of the target is the one asked for
      obtain rfl : m.userId = u := (memberKey_eq_of_get hm).2
      have hiff := mayKick_iff hg ho hm
      refine Isolation.runs_ite (fun howner ↦ ?_) fun howner ↦ ?_
      · exact ⟨rfl, rfl, .inr fun hmay ↦ (hiff.1 hmay).2.1 howner⟩
      refine Isolation.runs_ite (fun hadmin ↦ ?_) fun hadmin ↦ ?_
      · exact ⟨rfl, rfl, .inr fun hmay ↦ (hiff.1 hmay).2.2 hadmin⟩
      · exact ⟨rfl, rfl, rfl, hiff.2 ⟨not_lt.1 hrole, howner, hadmin⟩⟩
    · exact ⟨rfl, rfl, .inr (not_mayKick_of_target (hv ▸ hm))⟩
    · exact ⟨rfl, rfl, .inl rfl⟩
  · refine ⟨rfl, rfl, .inr (not_mayKick_of_op fun o ho' ↦ ?_)⟩
    rw [hv, ho'] at ho
    cases ho
  · exact ⟨rfl, rfl, .inl rfl⟩

theorem runs_closeView {c : String} {n : Int} {Q : Except StoreErr Unit → Db → List Key → Prop}
    (h : Q (.ok ()) (v.closeView u c n) ks) (hfail : Q (.error .failed) v ks) :
    exactly.runs .none Q (Group.closeView u c n) v ks := by
  unfold Db.closeView at h
  refine Isolation.runs_ite (fun hn ↦ ?_) fun hn ↦ ?_
  · rw [if_pos hn] at h
    exact runs_update (f := Prog.ret) (nil_subset _) rfl h hfail
  · rw [if_neg hn] at h
    exact runs_update (f := Prog.ret) (nil_subset _) rfl h hfail

/-- What `removeTx` comes to: a removal that the rule allows, a refusal that it demands, or a
failure of the store. -/
def Removal (d : Db) (groupId op u : String) (now : Time) :
    Except Err Unit × Unit → Db → List Key → Prop
  | (.ok (), ()), v, ks => .conv (Conv.group groupId) ∈ ks ∧ MayKick d groupId op u ∧
      v = d.afterLeave groupId u now
  | (.error err, ()), _, ks =>
      err.Failed ∨ (.conv (Conv.group groupId) ∈ ks ∧ ¬ MayKick d groupId op u)

theorem runs_removeTx {s : Int} (now : Time) (hne : op ≠ u)
    (hg : d.groups.get g.id = some { g with status := s }) :
    exactly.runs .none (Removal d g.id op u now) (Group.removeTx g op u now) d [] := by
  refine Isolation.runs_bind (runs_lockConversation ?_ fun _ _ _ ↦ .inl rfl)
  have hcheck : Group.removalTarget g op u = Group.checkKick g op u := if_pos hne
  dsimp only
  rw [hcheck]
  refine Isolation.runs_bind_mono ?_ (runs_checkKick mem_cons_self hg rfl)
  rintro (err | t) _ _ ⟨rfl, rfl, hres⟩
  · exact hres.imp_right fun hnot ↦ ⟨mem_cons_self, hnot⟩
  obtain ⟨rfl, hmay⟩ := hres
  obtain ⟨_, _, m, -, -, hm, -⟩ := id hmay
  have hmem : (d.members.get (g.id, t)).isSome := by rw [hm]; rfl
  refine runs_update (r := .ok true) (subset_append_left _ _)
    (congrArg (fun b ↦ (Except.ok b, _)) hmem) ?_ (.inl rfl)
  refine Isolation.runs_bind (runs_closeView ?_ (.inl rfl))
  refine ⟨mem_append_right _ mem_cons_self, hmay, rfl⟩

/-! ### The program around it -/

/-- A call that returns no more than success or an error. -/
def respond (p : Call (Except Err Unit)) : Call Response := do return .done (← p)

/-- `Kick` after it has read the group row. -/
def kickRest (cfg : Config) (op u : String) : Except StoreErr Group → Call Response
  | .error .notFound => return .done (.error errGroupNotFound)
  | .error e => return .done (.error (errStoreFailed.wrap (.store e)))
  | .ok g =>
    if g.status = groupStatusDismissed then return .done (.error errGroupDismissed)
    else if ¬ Identity.valid cfg.uuidString u then
      return .done (.error (errInvalidParam.withMessage ("invalid user id: " ++ u)))
    else if u = g.ownerId then return .done (.error errCannotKickOwner)
    else if op = u then
      return .done (.error (errInvalidParam.withMessage "use quit to leave the group"))
    else respond (Group.remove g op u)

theorem handle_kick (cfg : Config) :
    handle cfg (.kick groupId op u) = query (.getGroup groupId) >>= kickRest cfg op u := by
  simp only [handle, Group.kick, Group.activeGroup, Group.group, bind_assoc]
  refine congrArg (query (.getGroup groupId) >>= ·) (funext fun r ↦ ?_)
  match r with
  | .error .notFound | .error .duplicate | .error .failed => rfl
  | .ok g =>
    by_cases hs : g.status = groupStatusDismissed
    · simp only [pure_bind, kickRest, if_pos hs]
    · simp only [pure_bind, kickRest, if_neg hs]
      split_ifs <;> rfl

/-- How a membership transaction ends, and what follows. -/
def finish (groupId : String) : Except Err Unit × Unit → Call Response
  | (.error err, ()) => do
    rollback
    return .done (.error (err.or errStoreFailed))
  | (.ok (), ()) => do
    if ← commit then respond (Group.notifyChanged groupId (.ok (), ()))
    else return .done (.error ((Err.store .failed).or errStoreFailed))

/-- The transaction of a membership call and what follows it, as one program. -/
theorem respond_withTx {fn : Call (Except Err Unit × Unit)} :
    respond (withTx () fn >>= Group.notifyChanged groupId) = (do
      if ← begin_ then fn >>= finish groupId
      else return .done (.error ((Err.store .failed).or errStoreFailed))) := by
  refine congrArg (Prog.call _) (funext fun b ↦ ?_)
  cases b with
  | false => rfl
  | true =>
    change ((fn >>= _) >>= _) >>= _ = fn >>= finish groupId
    rw [bind_assoc, bind_assoc]
    refine congrArg (fn >>= ·) (funext fun ⟨r, ⟨⟩⟩ ↦ ?_)
    cases r with
    | error err => rfl
    | ok _ => exact congrArg (Prog.call _) (funext fun b ↦ by cases b <;> rfl)

/-- What holds where a removal ends. -/
def kickEnds (groupId op u : String) (d : Db) : Ends sig Response where
  commit v ks k := .conv (Conv.group groupId) ∈ ks ∧ MayKick d groupId op u ∧
    (∃ now, v = d.afterLeave groupId u now) ∧
    k true = respond (Group.notifyChanged groupId (.ok (), ())) ∧
    ∃ err, k false = .ret (.done (.error err)) ∧ err.is errStoreFailed
  rollback ks p := ∃ err, p = .ret (.done (.error err)) ∧
    (err.is errStoreFailed ∨ (.conv (Conv.group groupId) ∈ ks ∧ ¬ MayKick d groupId op u))

theorem runs_remove {s : Int} {now : Time} (hne : op ≠ u)
    (hg : d.groups.get g.id = some { g with status := s }) :
    exactly.runs (kickEnds g.id op u d) (fun _ _ _ ↦ False)
      (Group.removeTx g op u now >>= finish g.id) d [] := by
  refine Isolation.runs_bind_mono ?_ (runs_removeTx now hne hg)
  rintro ⟨err | _, ⟨⟩⟩ v ks hres
  · exact ⟨_, rfl, hres⟩
  · exact ⟨hres.1, hres.2.1, ⟨now, hres.2.2⟩, rfl, _, rfl, rfl⟩

end Transaction

/-! ### Runs in which roles keep still under the lock -/

section Runs

variable {cfg : Config} {users : Table User String User.keys} {pid : ℕ} {groupId op u : String}
  {w w' : World (system cfg users)} {H₀ : History cfg users} {p : Proc (system cfg users)}

/-- A step of the system. If it is an act of the outside, no member row of a group changes while
some process holds the lock of the group's conversation. -/
structure CalmStep (w w' : World (system cfg users)) : Prop where
  step : Step (system cfg users) w w'
  calm : ∀ d, w' = w.log none .env d → ∀ q p g u, w.procs q = some p →
    .conv (Conv.group g) ∈ p.held → w.db.members.get (g, u) = d.members.get (g, u)

/-- A run of such steps. -/
abbrev CalmRun : World (system cfg users) → World (system cfg users) → Prop :=
  Relation.ReflTransGen CalmStep

theorem CalmRun.reachable (hrun : CalmRun World.init w) : Reachable (system cfg users) w := by
  induction hrun with
  | refl => exact .init
  | tail _ hstep ih => exact ih.step hstep.step

/-- A run in which nothing happens outside is calm. -/
theorem calmRun_of_reachable (h : Reachable (system cfg users) w)
    (hno : ∀ e ∈ w.trace, e.who ≠ none) : CalmRun World.init w := by
  induction h with
  | init => exact .refl
  | @step w w' _ hstep ih =>
    refine (ih fun e he ↦ hno e (hstep.suffix.subset he)).tail ⟨hstep, ?_⟩
    rintro d rfl
    exact absurd rfl (hno _ mem_cons_self)

theorem CalmStep.agree (h : CalmStep w w') : Calm exactly w w' :=
  fun d henv hw q p hq ↦ ⟨agree_env henv, fun g u hg ↦ h.calm d hw q p g u hq hg⟩

/-- A moment of a run that has come to `w`. -/
structure Moment (w₁ w : World (system cfg users)) : Prop where
  before : CalmRun World.init w₁
  after : CalmRun w₁ w

theorem Moment.tail {w₁ : World (system cfg users)} (h : Moment w₁ w) (hstep : CalmStep w w') :
    Moment w₁ w' :=
  ⟨h.before, h.after.tail hstep⟩

/-- The process is in a transaction that holds the lock of the group's conversation. -/
def Locks (w : World (system cfg users)) (pid : ℕ) (groupId : String) : Prop :=
  ∃ p tx, w.procs pid = some (.run p (some tx)) ∧ .conv (Conv.group groupId) ∈ tx.held

/-- Earlier in the run, when the history was `H₀`, the process held the lock and the rule allowed
the removal that leads to the tables `d`. -/
def Removes (w : World (system cfg users)) (pid : ℕ) (groupId op u : String) (d : Db)
    (H₀ : History cfg users) : Prop :=
  ∃ w₁ now, Moment w₁ w ∧ w₁.trace = H₀ ∧ Locks w₁ pid groupId ∧ MayKick w₁.db groupId op u ∧
    d = w₁.db.afterLeave groupId u now

/-- **How a `Kick` came to its result.** -/
inductive Verdict (w : World (system cfg users)) (pid : ℕ) (groupId op u : String) :
    Except Err Unit → Prop where
  /-- It committed the removal. -/
  | removed {d : Db} {H₀ : History cfg users} (hremoves : Removes w pid groupId op u d H₀)
      (hcommit : ⟨some pid, .commit, d⟩ :: H₀ <:+ w.trace) : Verdict w pid groupId op u (.ok ())
  /-- Earlier in the run it held the lock, and the rule forbade the removal. -/
  | refused {w₁ : World (system cfg users)} {err : Err} (hrun : Moment w₁ w)
      (hlock : Locks w₁ pid groupId) (hmay : ¬ MayKick w₁.db groupId op u) :
      Verdict w pid groupId op u (.error err)
  | storeFailed {err : Err} (h : err.is errStoreFailed) : Verdict w pid groupId op u (.error err)
  /-- It found no group, or a dismissed one. -/
  | inactive {err : Err} {r : Except StoreErr Group} {H₀ : History cfg users}
      (hsaw : SawAt w.trace pid (.getGroup groupId) r H₀)
      (hr : r = .error .notFound ∨ ∃ g, r = .ok g ∧ g.status = groupStatusDismissed) :
      Verdict w pid groupId op u (.error err)
  | invalid {err : Err} (h : ¬ Identity.valid cfg.uuidString u) :
      Verdict w pid groupId op u (.error err)
  | self {err : Err} (h : op = u) : Verdict w pid groupId op u (.error err)
  | owner {err : Err} {g : Group} (hg : KnownGroup w.trace groupId g) (h : u = g.ownerId) :
      Verdict w pid groupId op u (.error err)

theorem Removes.later {d : Db} (h : Removes w pid groupId op u d H₀) (hstep : CalmStep w w') :
    Removes w' pid groupId op u d H₀ := by
  obtain ⟨w₁, now, hrun, hrest⟩ := h
  exact ⟨w₁, now, hrun.tail hstep, hrest⟩

theorem Verdict.later {r : Except Err Unit} (h : Verdict w pid groupId op u r)
    (hstep : CalmStep w w') (hv : (spec cfg users).Valid w'.trace) :
    Verdict w' pid groupId op u r := by
  have hs := hstep.step.suffix
  cases h with
  | removed hremoves hcommit => exact .removed (hremoves.later hstep) (hcommit.trans hs)
  | refused hrun hlock hmay => exact .refused (hrun.tail hstep) hlock hmay
  | storeFailed h => exact .storeFailed h
  | inactive hsaw hr => exact .inactive (hsaw.mono hs) hr
  | invalid h => exact .invalid h
  | self h => exact .self h
  | owner hg h => exact .owner (hg.later hv hs) h

/-- **Where a `Kick` stands.** -/
inductive Kicking (w : World (system cfg users)) (pid : ℕ) (groupId op u : String) :
    Proc (system cfg users) → Prop where
  | called : Kicking w pid groupId op u (.run (handle cfg (.kick groupId op u)) none)
  /-- It has read the group row and passed the checks made before the transaction. -/
  | checked {g : Group} (hg : KnownGroup w.trace groupId g) (hne : op ≠ u) :
      Kicking w pid groupId op u (.run (respond (Group.remove g op u)) none)
  | ready {g : Group} {now : Time} (hg : KnownGroup w.trace groupId g) (hne : op ≠ u) :
      Kicking w pid groupId op u (.run (respond (withTx () (Group.removeTx g op u now) >>=
        Group.notifyChanged g.id)) none)
  | inside {g : Group} {tx : Tx sig} {p : Call Response} (hg : KnownGroup w.trace groupId g)
      (hfits : Fits exactly (fun d ↦ ∃ s, d.groups.get groupId = some { g with status := s })
        (kickEnds groupId op u) w.db tx p) : Kicking w pid groupId op u (.run p (some tx))
  | removed (hv : Verdict w pid groupId op u (.ok ())) :
      Kicking w pid groupId op u (.run (respond (Group.notifyChanged groupId (.ok (), ()))) none)
  | returning {r : Except Err Unit} (hv : Verdict w pid groupId op u r) :
      Kicking w pid groupId op u (.run (.ret (.done r)) none)
  | halted : Kicking w pid groupId op u .halted

theorem Kicking.waits (h : Kicking w pid groupId op u p) (hstep : CalmStep w w')
    (hwait : Waits (spec cfg users) exactly pid p w w') :
    Kicking w' pid groupId op u p := by
  have hlater : ∀ {g}, KnownGroup w.trace groupId g → KnownGroup w'.trace groupId g :=
    fun hg ↦ hg.later hwait.later.valid hwait.later.suffix
  cases h with
  | called => exact .called
  | checked hg hne => exact .checked (hlater hg) hne
  | ready hg hne => exact .ready (hlater hg) hne
  | inside hg hfits => exact .inside (hlater hg) (hfits.agree hwait.agree)
  | removed hv => exact .removed (hv.later hstep hwait.later.valid)
  | returning hv => exact .returning (hv.later hstep hwait.later.valid)
  | halted => exact .halted

/-- After the group row was read: the checks before the transaction. -/
theorem Kicking.of_rest {r : Except StoreErr Group}
    (hsaw : SawAt w.trace pid (.getGroup groupId) r H₀)
    (hg : ∀ g, r = .ok g → KnownGroup w.trace groupId g) :
    Kicking w pid groupId op u (.run (kickRest cfg op u r) none) := by
  match r with
  | .error .notFound => exact .returning (.inactive hsaw (.inl rfl))
  | .error .duplicate | .error .failed => exact .returning (.storeFailed rfl)
  | .ok g =>
    simp only [kickRest]
    split_ifs with hdismissed hvalid howner hself
    · exact .returning (.inactive hsaw (.inr ⟨g, rfl, hdismissed⟩))
    · exact .returning (.owner (hg g rfl) howner)
    · exact .returning (.self hself)
    · exact .checked (hg g rfl) hself
    · exact .returning (.invalid hvalid)

/-- What is said of an entry that the call adds to the history `H₀`. -/
def Justified (w : World (system cfg users)) (pid : ℕ) (groupId op u : String)
    (H₀ : History cfg users) (ev : Event (system cfg users)) (d : Db) : Prop :=
  match ev with
  | .commit => Removes w pid groupId op u d H₀
  | .ret v => ∃ r, v = .done r ∧ Verdict w pid groupId op u r
  | _ => True

theorem Justified.later {ev : Event (system cfg users)} {d : Db}
    (h : Justified w pid groupId op u H₀ ev d) (hstep : CalmStep w w')
    (hv : (spec cfg users).Valid w'.trace) : Justified w' pid groupId op u H₀ ev d := by
  cases ev with
  | commit => exact Removes.later h hstep
  | ret v =>
    obtain ⟨r, hr, hverdict⟩ := h
    exact ⟨r, hr, hverdict.later hstep hv⟩
  | _ => trivial

/-- What a step of the call itself leads to: its next stage, and an entry or none. -/
structure Leads (w w' : World (system cfg users)) (pid : ℕ) (groupId op u : String)
    (p : Proc (system cfg users)) : Prop where
  procs : w'.procs pid = some p
  stage : Kicking w' pid groupId op u p
  trace : w'.trace = w.trace ∨ ∃ ev d, w'.trace = ⟨some pid, ev, d⟩ :: w.trace ∧
    Justified w' pid groupId op u w.trace ev d

theorem Leads.log {ev : Event (system cfg users)} {d : Db}
    (h : Kicking ((w.log (some pid) ev d).set pid p) pid groupId op u p)
    (hj : Justified ((w.log (some pid) ev d).set pid p) pid groupId op u w.trace ev d) :
    Leads w ((w.log (some pid) ev d).set pid p) pid groupId op u p :=
  ⟨World.procs_set_self _ _ _, h, .inr ⟨ev, d, rfl, hj⟩⟩

theorem Leads.set (h : Kicking (w.set pid p) pid groupId op u p) :
    Leads w (w.set pid p) pid groupId op u p :=
  ⟨World.procs_set_self _ _ _, h, .inl rfl⟩

theorem Kicking.acts (h : Kicking w pid groupId op u p) (hrun : CalmRun World.init w)
    (hp : w.procs pid = some p) (hact : Acts w pid p w') (hstep : CalmStep w w')
    (hv : (spec cfg users).Valid w'.trace) : ∃ p', Leads w w' pid groupId op u p' := by
  have hlater : ∀ {g}, KnownGroup w.trace groupId g → KnownGroup w'.trace groupId g :=
    fun hg ↦ hg.later hv hstep.step.suffix
  cases h with
  | called =>
    rw [handle_kick] at hact
    obtain ⟨r, d, hrd, rfl⟩ := hact.of_stmt
    refine ⟨_, .log (.of_rest .now fun g hg ↦ ?_) trivial⟩
    rcases hrd with ⟨hr, rfl⟩ | ⟨hr, -⟩
    · exact ⟨g.status, one_eq_ok.1 (hr.symm.trans hg)⟩
    · cases hr.symm.trans hg
  | checked hg hne =>
    obtain ⟨now, rfl⟩ := hact.of_ext
    exact ⟨_, .log (.ready (hlater hg) hne) trivial⟩
  | @ready g now hg hne =>
    rw [respond_withTx] at hact
    rcases hact.of_begin with rfl | rfl
    · refine ⟨_, .set (.inside hg (.start fun d hd ↦ ?_))⟩
      obtain rfl := hg.id_eq
      obtain ⟨s, hs⟩ := hd
      exact runs_remove hne hs
    · exact ⟨_, .set (.returning (.storeFailed rfl))⟩
  | @inside g tx p hg hfits =>
    have hnow := hfits.now hg
    cases hact with
    | txStmt => exact ⟨_, .set (.inside hg (hfits.stmt hg))⟩
    | txFail => exact ⟨_, .set (.inside hg hfits.fail)⟩
    | commit =>
      obtain ⟨hlock, hmay, ⟨now, hd⟩, hk, -⟩ := hnow
      rw [hk] at hstep ⊢
      have hremoves : Removes _ pid groupId op u (sig.run tx.done w.db) w.trace :=
        ⟨w, now, ⟨hrun, .single hstep⟩, rfl, ⟨_, _, hp, hlock⟩, hmay, hd⟩
      exact ⟨_, .log (.removed (.removed hremoves (suffix_refl _))) hremoves⟩
    | commitFail =>
      obtain ⟨-, -, -, -, err, hk, herr⟩ := hnow
      rw [hk]
      exact ⟨_, .set (.returning (.storeFailed herr))⟩
    | rollback =>
      obtain ⟨err, hk, hreason⟩ := hnow
      rw [hk] at hstep ⊢
      refine ⟨_, .set (.returning ?_)⟩
      rcases hreason with herr | ⟨hlock, hmay⟩
      · exact .storeFailed herr
      · exact .refused ⟨hrun, .single hstep⟩ ⟨_, _, hp, hlock⟩ hmay
  | removed hverdict =>
    have hverdict' := hverdict.later hstep hv
    obtain ⟨r, rfl⟩ := hact.of_ext
    exact ⟨_, .log (.returning hverdict') trivial⟩
  | @returning r hverdict =>
    have hverdict' := hverdict.later hstep hv
    obtain rfl := hact.of_ret
    exact ⟨_, .log .halted ⟨r, rfl, hverdict'⟩⟩
  | halted => cases hact

/-- The entries of a process lie before what others have added since. -/
theorem suffix_of_others {e : Entry (system cfg users)} {new H : History cfg users}
    (hnew : ∀ e' ∈ new, e'.who ≠ e.who) (hs : e :: H₀ <:+ new ++ H) : e :: H₀ <:+ H := by
  induction new with
  | nil => exact hs
  | cons e' new ih =>
    rcases suffix_cons_iff.1 hs with heq | hs
    · exact absurd (congrArg Entry.who (cons.inj heq).1).symm (hnew e' mem_cons_self)
    · exact ih (fun e'' he'' ↦ hnew e'' (mem_cons_of_mem _ he'')) hs

/-- What is known of a `Kick` that was called. -/
structure KickRun (w : World (system cfg users)) (pid : ℕ) (groupId op u : String) : Prop where
  stage : ∀ p, w.procs pid = some p → Kicking w pid groupId op u p
  entries : ∀ ev d H₀, ⟨some pid, ev, d⟩ :: H₀ <:+ w.trace → Justified w pid groupId op u H₀ ev d

theorem KickRun.step (h : KickRun w pid groupId op u) (hrun : CalmRun World.init w)
    (hstep : CalmStep w w') (hp : w.procs pid = some p) :
    KickRun w' pid groupId op u := by
  have hinv := Spec.inv_of_reachable (P := spec cfg users) spec_sound (CalmRun.reachable hrun)
  have hv := (hinv.step spec_sound hstep.step).valid
  have hold : ∀ ev d H₀, ⟨some pid, ev, d⟩ :: H₀ <:+ w.trace →
      Justified w' pid groupId op u H₀ ev d :=
    fun ev d H₀ hs ↦ (h.entries ev d H₀ hs).later hstep hv
  rcases hinv.acts_or_waits spec_sound (J := exactly) (fun hw ↦ hw) hstep.step hstep.agree hp with
    hact | hwait
  · obtain ⟨p', hprocs, hstage, htrace⟩ := (h.stage p hp).acts hrun hp hact hstep hv
    refine ⟨fun q hq ↦ Option.some.inj (hprocs.symm.trans hq) ▸ hstage, fun ev d H₀ hs ↦ ?_⟩
    rcases htrace with htrace | ⟨ev', d', htrace, hj⟩
    · exact hold ev d H₀ (htrace ▸ hs)
    · rw [htrace] at hs
      rcases suffix_cons_iff.1 hs with heq | hs
      · obtain ⟨heq, rfl⟩ := cons.inj heq
        cases heq
        exact hj
      · exact hold ev d H₀ hs
  · refine ⟨fun q hq ↦ ?_, fun ev d H₀ hs ↦ ?_⟩
    · exact Option.some.inj (hwait.procs.symm.trans hq) ▸ (h.stage p hp).waits hstep hwait
    · obtain ⟨-, new, htrace, hnew⟩ := hwait.later
      rw [htrace] at hs
      exact hold ev d H₀ (suffix_of_others hnew hs)

/-- A call in the history was there before, or has just been made. -/
theorem started_of_step {req : Request} (hs : Step (system cfg users) w w')
    (h : Started w'.trace pid req) : Started w.trace pid req ∨ w.procs pid = none ∧
      w' = (w.log (some pid) (.start req) w.db).set pid (.run (handle cfg req) none) := by
  obtain ⟨d, hd⟩ := h
  cases hs with
  | @start q c hfresh =>
    rcases mem_cons.1 hd with heq | hd
    · obtain rfl := Option.some.inj (congrArg Entry.who heq)
      have hev := congrArg Entry.event heq
      obtain rfl := Event.start.inj hev
      exact .inr ⟨hfresh, rfl⟩
    · exact .inl ⟨d, hd⟩
  | _ => exact .inl ⟨d, by simpa using hd⟩

/-- **Every `Kick` of every calm run is followed.** -/
theorem kickRun (hrun : CalmRun World.init w) (hstart : Started w.trace pid (.kick groupId op u)) :
    KickRun w pid groupId op u := by
  induction hrun with
  | refl =>
    obtain ⟨d, hd⟩ := hstart
    cases hd
  | @tail w w' hrun hstep ih =>
    have hinv := Spec.inv_of_reachable (P := spec cfg users) spec_sound (CalmRun.reachable hrun)
    rcases started_of_step hstep.step hstart with hold | ⟨hfresh, rfl⟩
    · obtain ⟨d, hd⟩ := hold
      obtain ⟨p, hp⟩ := Option.ne_none_iff_exists'.1 (hinv.started _ hd pid rfl)
      exact (ih ⟨d, hd⟩).step hrun hstep hp
    · refine ⟨fun p hp ↦ ?_, fun ev d H₀ hs ↦ ?_⟩
      · rw [World.procs_set_self] at hp
        exact Option.some.inj hp ▸ .called
      · rcases suffix_cons_iff.1 hs with heq | hs
        · cases (cons.inj heq).1
          trivial
        · exact absurd hfresh (hinv.started _ (hs.subset mem_cons_self) pid rfl)

end Runs

end Nexo
