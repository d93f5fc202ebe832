import Nexo.System.Rules

/-!
# The membership calls follow the specification

`Create`, `Join`, `Quit` and `Kick`: one lemma for each transaction, which shows that what it
commits is the action of the ledger, and one for each call.

The callback of a transaction ends with an error, after which nothing is committed, or with tables
that are the action's change of those at its lock (`MemberTx`); the checks it makes after the lock
are what the action demands of the state. `wp_member` turns this into the marks of the call: the
commit, the notification and the answer, in this order. `Quit` and `Kick` are one transaction
(`wp_removeTx`), in which `Kick` checks the roles as well (`wp_checkKick`).
-/

namespace Nexo

open Relational Errcode List Update

variable {cfg : Config} {users : Table User String User.keys} {pid : ℕ} {H : History cfg users}
  {done : List Stmt} {held : List Key} {req : Request} {a : Action} {groupId : String}

/-! ### Shared parts -/

/-- `LockConversation` inside a transaction returns the locked row, or the transaction fails. -/
theorem wp_lockConversation {v : Db} {id : String} {typ : Int} {g : String} {now : Time}
    {Q : Post (system cfg users) (Except StoreErr Conversation)}
    (h : Q (.ok (v.lockedRow id typ g now)) (.tx (v.insertConversationIfMissing id typ g now)
      (done ++ [.update (.insertConversationIfMissing id typ g now)] ++
        [.query (.lockConversation id)]) (.conv id :: held)) H)
    (hfail : ∀ e v' done' held', Q (.error e) (.tx v' done' held') H) :
    (spec cfg users).wp pid (lockConversation id typ g now) (.tx v done held) H Q := by
  refine wp_update_tx (nil_subset _) rfl ?_ (hfail _ _ _ _)
  refine ⟨mem_cons_self, fun r hadm ↦ ?_, hfail _ _ _ _⟩
  have hr : r = .ok (v.lockedRow id typ g now) := by
    have hr : r = one ((v.insertConversationIfMissing id typ g now).conversations.get id) := hadm
    rw [hr, Db.get_insertConversationIfMissing, if_pos rfl]
    rfl
  rw [hr]
  exact h

/-- A refusal, from a call that has had no effect. -/
theorem refused {v : Response} (hc : Ctx req [] pid H) (hv : Refused req v) :
    (spec cfg users).Returns pid v .out H :=
  returns hc fun _ hc' _ ↦ .memberError hc'.marks hv

/-- After the commit of a membership action: the announcement, and the return. -/
theorem wp_announce_member {α : Type} {f : Unit → Call α} {Q : Post (system cfg users) α}
    (hc : Ctx req [.commit] pid H) (hreq : Membership req a) (ha : Committed H pid a)
    (h : ∀ H', Ctx req [.changed a.group, .commit] pid H' → Committed H' pid a →
      (spec cfg users).wp pid (f ()) .out H' Q) :
    (spec cfg users).wp pid (ext (.groupChanged a.group) >>= f) .out H Q := by
  refine wp_announce (k := .changed a.group) (fun _ ↦ rfl) hc
    (fun H' _ hc' hs ↦ .memberChanged hc'.marks hreq (ha.mono hs)) fun H' _ hc' hs ↦ ?_
  exact h _ hc' (ha.mono hs)

theorem accepted (hc : Ctx req [.changed a.group, .commit] pid H) (hreq : Membership req a)
    (ha : Committed H pid a) :
    (spec cfg users).Returns pid a.answer .out H :=
  returns hc fun _ hc' hs ↦ .memberOk hc'.marks hreq (ha.mono hs)

/-- The commit of a membership action. -/
theorem Ctx.commitMember {d : Db} (hc : Ctx req [] pid H) (hreq : Membership req a)
    (hchange : Change cfg (Trace.db H) a d) :
    Ctx req [.commit] pid (⟨some pid, .commit, d⟩ :: H) ∧
      Committed (⟨some pid, .commit, d⟩ :: H) pid a :=
  ⟨hc.cons (.memberCommit hc.marks hreq hchange), d, H, suffix_refl _, hchange⟩

theorem wp_group {ms : List Mark} {Q : Post (system cfg users) (Except Err Group)}
    (hc : Ctx req ms pid H) (herr : ∀ H' err, Ctx req ms pid H' → H <:+ H' → Q (.error err) .out H')
    (hok : ∀ H' g, Ctx req ms pid H' → H <:+ H' → KnownGroup H' groupId g → Q (.ok g) .out H') :
    (spec cfg users).wp pid (Group.group groupId) .out H Q := by
  refine wp_query hc fun H' r hc' hs hr ↦ ?_
  have herr' : ∀ err, Q (.error err) .out _ :=
    fun err ↦ herr _ err hc' (hs.trans (suffix_cons _ _))
  match r, hr with
  | .error .notFound, _ | .error .duplicate, _ | .error .failed, _ => exact herr' _
  | .ok g, hr =>
    have hexec := exec_of_ok (q := .getGroup groupId) hr
    exact hok _ g hc' (hs.trans (suffix_cons _ _)) ⟨g.status, one_eq_ok.1 hexec⟩

theorem wp_activeGroup {ms : List Mark} {Q : Post (system cfg users) (Except Err Group)}
    (hc : Ctx req ms pid H) (herr : ∀ H' err, Ctx req ms pid H' → H <:+ H' → Q (.error err) .out H')
    (hok : ∀ H' g, Ctx req ms pid H' → H <:+ H' → KnownGroup H' groupId g → Q (.ok g) .out H') :
    (spec cfg users).wp pid (Group.activeGroup groupId) .out H Q := by
  refine Spec.wp_bind.2 (wp_group hc (fun H' err hc' hs ↦ herr H' err hc' hs) ?_)
  intro H' g hc' hs hg
  change (spec cfg users).wp pid (if _ then _ else _) _ _ _
  split
  · exact herr _ _ hc' hs
  · exact hok _ _ hc' hs hg

/-! ### Transactions -/

/-- What the callback of a membership transaction does: it fails, or the tables it is about to
commit are those of the action. -/
def MemberTx (a : Action) (H : History cfg users) :
    Post (system cfg users) (Except Err Unit × Unit) := fun r m H' ↦
  H' = H ∧ ∃ v done held, m = .tx v done held ∧
    (r.1 = .ok () → (∀ s ∈ done, Writes held s) ∧ Change cfg (Trace.db H) a v)

theorem MemberTx.error {err : Err} {v : Db} :
    MemberTx a H (.error err, ()) (.tx v done held) H :=
  ⟨rfl, v, done, held, rfl, nofun⟩

theorem MemberTx.ok {v : Db} (hw : ∀ s ∈ done, Writes held s)
    (hchange : Change cfg (Trace.db H) a v) :
    MemberTx a H (.ok (), ()) (.tx v done held) H :=
  ⟨rfl, v, done, held, rfl, fun _ ↦ ⟨hw, hchange⟩⟩

theorem wp_withTx_member {fn : Call (Except Err Unit × Unit)}
    {Q : Post (system cfg users) (Except Err Unit × Unit)} (hc : Ctx req [] pid H)
    (hreq : Membership req a) (herr : ∀ H' err, Ctx req [] pid H' → Q (.error err, ()) .out H')
    (hok : ∀ H', Ctx req [.commit] pid H' → Committed H' pid a → Q (.ok (), ()) .out H')
    (hbody : ∀ H', Ctx req [] pid H' → H <:+ H' →
      (spec cfg users).wp pid fn (.tx (Trace.db H') [] []) H' (MemberTx a H')) :
    (spec cfg users).wp pid (withTx () fn) .out H Q := by
  refine wp_withTx hc (fun H' hc' _ ↦ herr H' _ hc') fun H' hc' hs ↦ ?_
  refine Spec.wp_mono ?_ (hbody H' hc' hs)
  rintro ⟨r, ⟨⟩⟩ m H'' ⟨rfl, v, done, held, rfl, hpost⟩
  refine ⟨rfl, v, done, held, rfl, ?_⟩
  cases r with
  | error err => exact herr _ _ hc'
  | ok u =>
    obtain ⟨hw, hchange⟩ := hpost rfl
    obtain ⟨hcommit, ha⟩ := hc'.commitMember hreq hchange
    exact ⟨hw, hc'.allowed (.memberCommit hc'.marks hreq hchange), hok _ hcommit ha, herr _ _ hc'⟩

/-- A membership transaction, its announcement and its return. -/
theorem wp_member {fn : Call (Except Err Unit × Unit)} (hc : Ctx req [] pid H)
    (hreq : Membership req a) (hans : a.answer = .done (.ok ()))
    (hrefuse : ∀ err, Refused req (.done (.error err)))
    (hbody : ∀ H', Ctx req [] pid H' → H <:+ H' →
      (spec cfg users).wp pid fn (.tx (Trace.db H') [] []) H' (MemberTx a H')) :
    (spec cfg users).wp pid (withTx () fn >>= Group.notifyChanged a.group) .out H
      fun r ↦ (spec cfg users).Returns pid (.done r) := by
  refine Spec.wp_bind.2 (wp_withTx_member hc hreq (fun H' err hc' ↦ ?_) (fun H' hc' ha ↦ ?_) hbody)
  · exact refused hc' (hrefuse _)
  · refine wp_announce_member hc' hreq ha fun H'' hc'' ha'' ↦ ?_
    have h := accepted hc'' hreq ha''
    rwa [hans] at h

/-! ### Join -/

theorem wp_joinTx {g : Group} {u : String} {now : Time} (hg : KnownGroup H groupId g) :
    (spec cfg users).wp pid (Group.joinTx cfg g u now) (.tx (Trace.db H) [] []) H
      (MemberTx (.join groupId u) H) := by
  obtain rfl := hg.id_eq
  obtain ⟨s, hrow⟩ := hg
  refine Spec.wp_bind.2 (wp_lockConversation ?_ fun _ _ _ _ ↦ .error)
  refine wp_query_tx (mem_cons_self) (fun r hr ↦ ?_) .error
  match r, hr with
  | .ok _, _ => exact .error
  | .error .notFound, hr =>
    refine Spec.wp_bind.2 ⟨mem_cons_self, fun n hn ↦ ?_, .error⟩
    obtain rfl : n = .ok ((Trace.db H).countGroupMembers g.id : Int) := hn
    change (spec cfg users).wp pid (if _ then _ else _) _ _ _
    split
    · exact .error
    · next hlen =>
      have hnone : (Trace.db H).members.get (g.id, u) = none := hr.2
      have hfree : (Trace.db H).members.Free
          { groupId := g.id, userId := u, role := roleMember, joinedAt := now } :=
        Db.free_member_iff.2 hnone
      refine wp_update_tx (subset_append_left _ _) (if_pos hfree) ?_ .error
      refine wp_update_tx (nil_subset _) rfl ?_ .error
      refine .ok ?_ (.join (by rw [hrow]; rfl) hnone (by omega))
      simp [Writes, touches, Stmt.locks]

theorem wp_join {u : String} (hc : Ctx (.join groupId u) [] pid H) :
    (spec cfg users).wp pid (Group.join cfg groupId u) .out H
      fun r ↦ (spec cfg users).Returns pid (.done r) := by
  have herr : ∀ {H'} err, Ctx (.join groupId u) [] pid H' →
      (spec cfg users).Returns pid (.done (.error err)) .out H' :=
    fun err hc' ↦ refused hc' (.join err)
  refine Spec.wp_bind.2 (wp_activeGroup hc (fun H' err hc' _ ↦ herr err hc') ?_)
  intro H₁ g hc₁ _ hg
  refine wp_query hc₁ fun H₂ r hc₂ hs₂ _ ↦ ?_
  match r with
  | .error .notFound | .error .duplicate | .error .failed => exact herr _ hc₂
  | .ok _ =>
    refine wp_question rfl hc₂ fun H₃ now hc₃ hs₃ ↦ ?_
    have hg₃ := hg.later hc₃.valid ((hs₂.trans (suffix_cons _ _)).trans hs₃)
    rw [hg.id_eq]
    exact wp_member hc₃ .join rfl .join fun H' hc' hs' ↦ wp_joinTx (hg₃.later hc'.valid hs')

/-! ### Quit and Kick -/

section Removal

variable {v : Db} {done : List Stmt} {held : List Key} {groupId u : String} {g : Group}
  {op : String}

/-- The target of a removal is the user asked for. -/
theorem wp_member_tx (hk : .conv (Conv.group groupId) ∈ held) :
    (spec cfg users).wp pid (Group.member groupId u) (.tx v done held) H
      (ReadTx v done held H fun r ↦ ∀ m, r = .ok m → m.userId = u) := by
  refine wp_query_tx hk (fun r hr ↦ ?_) (.none (by simp))
  match r, hr with
  | .error .notFound, _ | .error .duplicate, _ | .error .failed, _ => exact .intro (by simp) [_]
  | .ok m, ⟨role, hm⟩ =>
    refine .intro (fun m' hm' ↦ ?_) [_]
    cases hm'
    exact (memberKey_eq_of_get hm).2

theorem wp_checkKick (hk : .conv (Conv.group g.id) ∈ held) :
    (spec cfg users).wp pid (Group.checkKick g op u) (.tx v done held) H
      (ReadTx v done held H fun r ↦ ∀ t, r = .ok t → t = u) := by
  refine wp_bind_readTx (wp_member_tx hk) fun r qs _ ↦ wp_append_readTx _ ?_
  match r with
  | .error err => exact .none (by simp)
  | .ok op =>
    change (spec cfg users).wp pid (if _ then _ else _) _ _ _
    split
    · exact .none (by simp)
    · refine wp_bind_readTx (wp_member_tx hk) fun r qs' hr ↦ wp_append_readTx _ ?_
      match r, hr with
      | .error err, _ => exact .none (by simp)
      | .ok target, hr =>
        change (spec cfg users).wp pid (if _ then _ else if _ then _ else _) _ _ _
        split
        · exact .none (by simp)
        split
        · exact .none (by simp)
        · refine .none fun t ht ↦ ?_
          cases ht
          exact hr target rfl

theorem wp_removalTarget (hk : .conv (Conv.group g.id) ∈ held) :
    (spec cfg users).wp pid (Group.removalTarget g op u) (.tx v done held) H
      (ReadTx v done held H fun r ↦ ∀ t, r = .ok t → t = u) := by
  rw [Group.removalTarget]
  split
  · exact wp_checkKick hk
  · exact .none fun t ht ↦ (Except.ok.inj ht).symm

theorem wp_closeView {c : String} {n : Int} {Q : Post (system cfg users) (Except StoreErr Unit)}
    (h : ∀ s : Update, s.touches ⊆ [.conv c] →
      Q (.ok ()) (.tx (v.closeView u c n) (done ++ [.update s]) held) H)
    (hfail : Q (.error .failed) (.tx v done held) H) :
    (spec cfg users).wp pid (Group.closeView u c n) (.tx v done held) H Q := by
  unfold Db.closeView at h
  by_cases hn : n = 0
  · have hprog : Group.closeView u c n = update (.deleteUserConversation u c) := if_pos hn
    have hq := h (.deleteUserConversation u c) (List.Subset.refl _)
    rw [if_pos hn] at hq
    rw [hprog]
    exact wp_update_tx_last (nil_subset _) rfl hq hfail
  · have hprog : Group.closeView u c n = update (.setUserConversationMaxSeq u c n) := if_neg hn
    have hq := h (.setUserConversationMaxSeq u c n) (nil_subset _)
    rw [if_neg hn] at hq
    rw [hprog]
    exact wp_update_tx_last (nil_subset _) rfl hq hfail

theorem wp_removeTx {now : Time} (hg : KnownGroup H groupId g) (hne : u ≠ g.ownerId) :
    (spec cfg users).wp pid (Group.removeTx g op u now) (.tx (Trace.db H) [] []) H
      (MemberTx (.leave groupId u) H) := by
  obtain rfl := hg.id_eq
  obtain ⟨s, hrow⟩ := hg
  refine Spec.wp_bind.2 (wp_lockConversation ?_ fun _ _ _ _ ↦ .error)
  refine wp_bind_readTx (wp_removalTarget mem_cons_self) fun r qs hr ↦ ?_
  match r, hr with
  | .error err, _ => exact .error
  | .ok t, hr =>
    obtain rfl := hr t rfl
    cases hm : (Trace.db H).isMember g.id t with
    | false =>
      exact wp_update_tx (subset_append_left _ _) (congrArg (fun b ↦ (Except.ok b, _)) hm)
        .error .error
    | true =>
      refine wp_update_tx (subset_append_left _ _) (congrArg (fun b ↦ (Except.ok b, _)) hm)
        ?_ .error
      refine Spec.wp_bind.2 (wp_closeView (fun st hst ↦ ?_) .error)
      refine .ok ?_ (.leave hrow hne hm)
      have hst' : st.touches ⊆ [.member g.id t, .conv (Conv.group g.id)] :=
        List.Subset.trans hst (subset_cons_self _ _)
      simp only [forall_mem_append, forall_mem_singleton, forall_mem_map]
      exact ⟨⟨by simp [Writes, touches], by simp [Writes, touches, Stmt.locks]⟩, hst'⟩

theorem wp_remove {req : Request} (hc : Ctx req [] pid H) (hreq : Membership req (.leave groupId u))
    (hrefuse : ∀ err, Refused req (.done (.error err))) (hg : KnownGroup H groupId g)
    (hne : u ≠ g.ownerId) :
    (spec cfg users).wp pid (Group.remove g op u) .out H
      fun r ↦ (spec cfg users).Returns pid (.done r) := by
  refine wp_question rfl hc fun H₁ now hc₁ hs₁ ↦ ?_
  have hg₁ := hg.later hc₁.valid hs₁
  rw [hg.id_eq]
  exact wp_member hc₁ hreq rfl hrefuse fun H' hc' hs' ↦ wp_removeTx (hg₁.later hc'.valid hs') hne

theorem wp_quit (hc : Ctx (.quit groupId u) [] pid H) :
    (spec cfg users).wp pid (Group.quit groupId u) .out H
      fun r ↦ (spec cfg users).Returns pid (.done r) := by
  refine Spec.wp_bind.2 (wp_activeGroup hc (fun H' err hc' _ ↦ refused hc' (.quit err)) ?_)
  intro H₁ g hc₁ _ hg
  change (spec cfg users).wp pid (if _ then _ else _) _ _ _
  split
  · exact refused hc₁ (.quit _)
  · next hne => exact wp_remove hc₁ .quit .quit hg (Ne.symm hne)

theorem wp_kick (hc : Ctx (.kick groupId op u) [] pid H) :
    (spec cfg users).wp pid (Group.kick cfg groupId op u) .out H
      fun r ↦ (spec cfg users).Returns pid (.done r) := by
  refine Spec.wp_bind.2 (wp_activeGroup hc (fun H' err hc' _ ↦ refused hc' (.kick err)) ?_)
  intro H₁ g hc₁ _ hg
  change (spec cfg users).wp pid (if _ then _ else if _ then _ else if _ then _ else _) _ _ _
  split
  · exact refused hc₁ (.kick _)
  split
  · exact refused hc₁ (.kick _)
  · next hne =>
    split
    · exact refused hc₁ (.kick _)
    · exact wp_remove hc₁ .kick .kick hg hne

end Removal

/-! ### Create -/

theorem Group.mem_uniq {x : String} {xs : List String} : x ∈ Group.uniq xs ↔ x ∈ xs := by
  induction xs with
  | nil => rfl
  | cons y ys ih =>
    by_cases hxy : x = y <;> simp [Group.uniq, ih, hxy]

theorem Group.nodup_uniq (xs : List String) : (Group.uniq xs).Nodup := by
  induction xs with
  | nil => exact nodup_nil
  | cons y ys ih =>
    rw [Group.uniq, nodup_cons]
    exact ⟨by simp, ih.filter _⟩

theorem Group.length_le_of_validateMembers {ids : List String}
    (h : Group.validateMembers cfg ids = none) : (ids.length : Int) ≤ cfg.maxMembers := by
  unfold Group.validateMembers at h
  split at h
  · cases h
  split at h
  · cases h
  · omega

theorem wp_createTx {g : Group} {ids : List String} {now : Time} (hids : ids.Nodup)
    (howner : g.ownerId ∈ ids) (hlen : (ids.length : Int) ≤ cfg.maxMembers) :
    (spec cfg users).wp pid (Group.createTx g ids now) (.tx (Trace.db H) [] []) H
      (MemberTx (.create g ids) H) := by
  refine Spec.wp_bind.2 ?_
  by_cases hfree : (Trace.db H).groups.Free g
  swap
  · exact wp_update_tx (subset_append_left _ _) (if_neg hfree) .error .error
  refine wp_update_tx (subset_append_left _ _) (if_pos hfree) ?_ .error
  rcases hmembers : (Trace.db H).members.insertAll? (Group.newMembers g.ownerId g.id ids now) with
    - | members
  · exact wp_update_tx_last (subset_append_left _ _)
      (exec_addGroupMembers_none hmembers) .error .error
  refine wp_update_tx_last (subset_append_left _ _) (exec_addGroupMembers hmembers)
    ?_ .error
  refine Spec.wp_bind.2 (wp_lockConversation ?_ fun _ _ _ _ ↦ .error)
  have hneeds : (createUserConversations (Group.newViews g.id ids now)).needs ⊆
      [.conv (Conv.group g.id)] := by
    simp [needs, Group.newViews, subset_def]
  have hneeds' := List.Subset.trans hneeds (subset_append_left [.conv (Conv.group g.id)]
    (Stmt.locks (.update (.addGroupMembers (Group.newMembers g.ownerId g.id ids now))) ++
      (Stmt.locks (.update (.createGroup g)) ++ [])))
  rcases hviews : (Trace.db H).userConversations.insertAll?
    ((Group.newViews g.id ids now).map fun uc ↦ { uc with createdAt := uc.updatedAt }) with
    - | views
  · exact wp_update_tx hneeds' (exec_createUserConversations_none hviews) .error .error
  refine wp_update_tx hneeds' (exec_createUserConversations hviews) ?_ .error
  refine .ok ?_ (.create (Db.free_group_iff.1 hfree) hids howner hlen hmembers hviews)
  have hkeys : (addGroupMembers (Group.newMembers g.ownerId g.id ids now)).touches ⊆
      [.conv (Conv.group g.id)] ++ (Stmt.locks (.update (.addGroupMembers
        (Group.newMembers g.ownerId g.id ids now))) ++ (Stmt.locks (.update (.createGroup g)) ++ []))
      := by
    intro k hk
    obtain ⟨x, hx, rfl | rfl⟩ : ∃ x ∈ ids, k = .member g.id x ∨ k = .conv (Conv.group g.id) := by
      simpa [touches, Group.newMembers] using hk
    · simpa [Stmt.locks, Group.newMembers] using hx
    · simp
  simp only [forall_mem_append, forall_mem_singleton]
  exact ⟨⟨⟨⟨⟨by simp, by simp [Writes, touches, Stmt.locks]⟩, hkeys⟩,
    by simp [Writes, touches, Stmt.locks]⟩, trivial⟩, hneeds'⟩

theorem wp_createCommit {owner : String} {inp : Group.CreateInput}
    (hlen : ((Group.uniq (owner :: inp.memberIds)).length : Int) ≤ cfg.maxMembers)
    (hc : Ctx (.create owner inp) [] pid H) :
    (spec cfg users).wp pid (Group.createCommit owner inp (Group.uniq (owner :: inp.memberIds)))
      .out H fun r ↦ (spec cfg users).Returns pid (.info r) := by
  refine wp_question rfl hc fun H₁ now hc₁ _ ↦ wp_question rfl hc₁ fun H₂ id hc₂ _ ↦ ?_
  have hreq : Membership (.create owner inp) (.create (Group.newGroup owner inp id now)
    (Group.uniq (owner :: inp.memberIds))) := .create rfl
  refine Spec.wp_bind.2 (wp_withTx_member hc₂ hreq (fun H' err hc' ↦ ?_) (fun H' hc' ha ↦ ?_)
    fun H' _ _ ↦ ?_)
  · exact refused hc' (.create _)
  · exact wp_announce_member hc' hreq ha fun H'' hc'' ha'' ↦ accepted hc'' hreq ha''
  · exact wp_createTx (Group.nodup_uniq _) (Group.mem_uniq.2 mem_cons_self) hlen

theorem wp_create {owner : String} {inp : Group.CreateInput}
    (hc : Ctx (.create owner inp) [] pid H) :
    (spec cfg users).wp pid (Group.create cfg owner inp) .out H
      fun r ↦ (spec cfg users).Returns pid (.info r) := by
  have herr : ∀ {H'} err, Ctx (.create owner inp) [] pid H' →
      (spec cfg users).Returns pid (.info (.error err)) .out H' :=
    fun err hc' ↦ refused hc' (.create err)
  unfold Group.create
  cases Group.validateCreate inp with
  | some err => exact herr err hc
  | none =>
    rcases hids : Group.validateMembers cfg (Group.uniq (owner :: inp.memberIds)) with - | err
    swap
    · simp only [hids]
      exact herr err hc
    simp only [hids]
    refine wp_query hc fun H₁ r hc₁ _ _ ↦ ?_
    match r with
    | .error _ => exact herr _ hc₁
    | .ok existing =>
      change (spec cfg users).wp pid (if _ then _ else _) _ _ _
      split
      · exact herr _ hc₁
      · exact wp_createCommit (Group.length_le_of_validateMembers hids) hc₁

end Nexo
