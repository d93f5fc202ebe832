import Nexo.System.Kick

/-!
# Kick authorisation is decided on the locked state

The group row and some checks are read before the lock, roles and membership after it. In every run
in which roles change only under the lock of the group's conversation, all of it amounts to one rule
on one state: the tables committed while the call holds the lock (`MayKick`).
-/

namespace Nexo

open Relational Errcode List

variable {cfg : Config} {users : Table User String User.keys}

/-- The user is a member all the time between two moments. -/
def SameStint (H H' : History cfg users) (g u : String) : Prop :=
  ∀ K, (H <:+ K ∧ K <:+ H' ∨ H' <:+ K ∧ K <:+ H) → (Trace.db K).isMember g u = true

section Facts

variable {w : World (system cfg users)} {pid : ℕ} {groupId op u : String}

theorem MayKick.isMember {d : Db} (h : MayKick d groupId op u) :
    d.isMember groupId op = true ∧ d.isMember groupId u = true := by
  obtain ⟨_, o, m, -, ho, hm, -⟩ := h
  simp [Db.isMember, ho, hm]

section

variable (hv : (spec cfg users).Valid w.trace)
include hv

/-- A refused call has committed nothing. -/
theorem not_commit_of_refused
    (hstart : Started w.trace pid (.kick groupId op u)) {err : Err} {d : Db}
    {H₁ : History cfg users}
    (hret : ⟨some pid, .ret (.done (.error err)), d⟩ :: H₁ <:+ w.trace) :
    Mark.commit ∉ marks pid w.trace := by
  have hmark : Mark.returned (.done (.error err)) ∈ marks pid w.trace :=
    mem_marks.2 ⟨_, hret.subset mem_cons_self, rfl, rfl⟩
  generalize hms : marks pid w.trace = ms at hmark
  have hrun := hms ▸ memberRun hv rfl hstart
  cases hrun with
  | idle => cases hmark
  | refused _ => simp
  | new hreq _ hshape =>
    cases hreq
    rcases hshape with rfl | rfl | rfl <;> simp [Action.answer] at hmark

/-- The owner is never a target of the rule, at any moment of the history. -/
theorem not_mayKick_of_owner {g : Group}
    (hg : KnownGroup w.trace groupId g) (howner : u = g.ownerId) {H₀ : History cfg users}
    (hs : H₀ <:+ w.trace) : ¬ MayKick (Trace.db H₀) groupId op u := by
  rintro ⟨row, _, _, hrow, -, -, -, hne, -⟩
  obtain ⟨s, hs'⟩ := KnownGroup.later (g := row) ⟨row.status, hrow⟩ hv hs
  obtain ⟨s'', hg⟩ := hg
  have heq := congrArg Group.ownerId (Option.some.inj (hs'.symm.trans hg))
  exact hne (howner.trans heq.symm)

/-- A group that stays active is found so. -/
theorem not_inactive
    (hstart : Started w.trace pid (.kick groupId op u))
    (hactive : ∀ H₀, H₀ <:+ w.trace → Started H₀ pid (.kick groupId op u) →
      ∃ g, (Trace.db H₀).groups.get groupId = some g ∧ g.status ≠ groupStatusDismissed)
    {r : Except StoreErr Group} {H₀ : History cfg users}
    (hsaw : SawAt w.trace pid (.getGroup groupId) r H₀) :
    ¬ (r = .error .notFound ∨ ∃ g, r = .ok g ∧ g.status = groupStatusDismissed) := by
  obtain ⟨d, hs⟩ := id hsaw
  have hstart₀ : Started H₀ pid (.kick groupId op u) := by
    rcases (hv.of_suffix hs).head with ⟨_, hev, -⟩ | ⟨req, hreq, -⟩
    · cases hev
    · rwa [started_unique hv hstart (hreq.mono hsaw.suffix)]
  obtain ⟨g, hg, hstatus⟩ := hactive H₀ hsaw.suffix hstart₀
  have hexec : Query.exec (Trace.db H₀) (.getGroup groupId) = .ok g := one_eq_ok.2 hg
  rcases hsaw.result hv with rfl | rfl
  · rw [hexec]
    rintro (h | ⟨g', hg', hdismissed⟩)
    · cases h
    · cases hg'
      exact hstatus hdismissed
  · rintro (h | ⟨g', hg', -⟩)
    · cases h
    · cases hg'

end

end Facts

/-- **Kick authorisation.** In every run in which roles keep still under the conversation lock, for
a `Kick` of a valid id other than the operator's, while the group is active:

* a call that returns, and not for a failure of the store, held the lock at some moment of the run,
  and it committed the removal there if and only if the rule allowed it there, with success as its
  answer; or its target is the owner, and it returned an error;
* without that commit it left every table unchanged;
* every commit it makes is such a removal, of a member by a member;
* the owner is a member at every moment; and of two kicks of the same stint at most one commits. -/
theorem kick_authorisation {w : World (system cfg users)} (hrun : CalmRun World.init w) {pid : ℕ}
    {groupId op u : String} (hstart : Started w.trace pid (.kick groupId op u))
    (hvalid : Identity.valid cfg.uuidString u) (hne : op ≠ u)
    (hactive : ∀ H₀, H₀ <:+ w.trace → Started H₀ pid (.kick groupId op u) →
      ∃ g, (Trace.db H₀).groups.get groupId = some g ∧ g.status ≠ groupStatusDismissed) :
    (∀ v d H₁, ⟨some pid, .ret v, d⟩ :: H₁ <:+ w.trace → ∃ r, v = .done r ∧
      ((∀ err, r = .error err → err.is errStoreFailed = false) →
        (∃ w₁, Moment w₁ w ∧ Locks w₁ pid groupId ∧
          ((∃ now, ⟨some pid, .commit, w₁.db.afterLeave groupId u now⟩ :: w₁.trace <:+ w.trace) ↔
            MayKick w₁.db groupId op u) ∧
          (r = .ok () ↔ MayKick w₁.db groupId op u)) ∨
        (r ≠ .ok () ∧ ∀ H₀, H₀ <:+ w.trace → ¬ MayKick (Trace.db H₀) groupId op u))) ∧
    (∀ e H₀, e :: H₀ <:+ w.trace → e.who = some pid → e.event ≠ .commit →
      e.db = Trace.db H₀) ∧
    (∀ d H₀, ⟨some pid, .commit, d⟩ :: H₀ <:+ w.trace →
      MayKick (Trace.db H₀) groupId op u ∧ (∃ now, d = (Trace.db H₀).afterLeave groupId u now) ∧
      (Trace.db H₀).isMember groupId op = true ∧ (Trace.db H₀).isMember groupId u = true ∧
      d.isMember groupId u = false) ∧
    (∀ H₀, H₀ <:+ w.trace → ∀ g, (Trace.db H₀).groups.get groupId = some g →
      (Trace.db H₀).isMember groupId g.ownerId = true) ∧
    (∀ qid op', qid ≠ pid → Started w.trace qid (.kick groupId op' u) → ∀ d H₀ d' H₀',
      ⟨some pid, .commit, d⟩ :: H₀ <:+ w.trace → ⟨some qid, .commit, d'⟩ :: H₀' <:+ w.trace →
      ¬ SameStint H₀ H₀' groupId u) := by
  have hv := valid_of_reachable (CalmRun.reachable hrun)
  have hcommit : ∀ {q op'}, Started w.trace q (.kick groupId op' u) → ∀ {d H₀},
      ⟨some q, .commit, d⟩ :: H₀ <:+ w.trace → MayKick (Trace.db H₀) groupId op' u ∧
        ∃ now, d = (Trace.db H₀).afterLeave groupId u now := by
    intro q op' hstart' d H₀ hs
    obtain ⟨w₁, now, -, rfl, -, hmay, hd⟩ := (kickRun hrun hstart').entries _ _ _ hs
    exact ⟨hmay, now, hd⟩
  have hgone : ∀ {d : Db} {now : Time}, (d.afterLeave groupId u now).isMember groupId u = false := by
    simp [Db.isMember_afterLeave]
  refine ⟨fun v d H₁ hret ↦ ?_, fun e H₀ hs hwho hev ↦ unchanged hv rfl hstart hs hwho hev,
    fun d H₀ hs ↦ ?_, fun H₀ hs g hg ↦ ?_, ?_⟩
  · obtain ⟨r, rfl, hverdict⟩ := (kickRun hrun hstart).entries _ _ _ hret
    refine ⟨r, rfl, fun hfine ↦ ?_⟩
    cases hverdict with
    | removed hremoves hs =>
      obtain ⟨w₁, now, hmoment, rfl, hlock, hmay, rfl⟩ := hremoves
      exact .inl ⟨w₁, hmoment, hlock, iff_of_true ⟨now, hs⟩ hmay, iff_of_true rfl hmay⟩
    | @refused w₁ err hmoment hlock hmay =>
      refine .inl ⟨w₁, hmoment, hlock, iff_of_false ?_ hmay, iff_of_false nofun hmay⟩
      rintro ⟨now, hs⟩
      refine not_commit_of_refused hv hstart hret (mem_marks.2 ?_)
      exact ⟨_, hs.subset List.mem_cons_self, rfl, rfl⟩
    | storeFailed h => exact absurd (hfine _ rfl) (by simp [h])
    | inactive hsaw hr => exact absurd hr (not_inactive hv hstart hactive hsaw)
    | invalid h => exact absurd hvalid h
    | self h => exact absurd h hne
    | owner hg h => exact .inr ⟨nofun, fun H₀ hs ↦ not_mayKick_of_owner hv hg h hs⟩
  · obtain ⟨hmay, now, rfl⟩ := hcommit hstart hs
    exact ⟨hmay, ⟨now, rfl⟩, hmay.isMember.1, hmay.isMember.2, hgone⟩
  · exact (inv_of_valid (hv.of_suffix hs)).roster.ownerMember groupId g hg
  · intro qid op' hq hstart' d H₀ d' H₀' hs hs' hstint
    obtain ⟨-, now, rfl⟩ := hcommit hstart hs
    obtain ⟨-, now', rfl⟩ := hcommit hstart' hs'
    -- one of the two commits lies before the other, and after it the target is gone
    rcases cons_suffix_cases hs hs' with heq | hbefore | hbefore
    · exact hq (Option.some.inj (congrArg Entry.who (List.cons.inj heq).1)).symm
    · have hmem := hstint _ (.inl ⟨List.suffix_cons _ _, hbefore⟩)
      rw [Trace.db_cons, hgone] at hmem
      cases hmem
    · have hmem := hstint _ (.inr ⟨List.suffix_cons _ _, hbefore⟩)
      rw [Trace.db_cons, hgone] at hmem
      cases hmem

/-! ### An example

The owner of a group of two removes the other member, and tries to do so again. -/

namespace KickDemo

def calls : List (Request × ∀ e : Ext, e.Res) :=
  [(.create "u___1" ⟨"team", "", "", "", ["u___2"]⟩, answers 10 "g"),
   (.kick "g" "u___1" "u___2", answers 20 ""),
   (.kick "g" "u___1" "u___2", answers 30 "")]

def trace : History Demo.config Demo.accounts :=
  (serial (system Demo.config Demo.accounts) calls 0 []).getD []

def world : World (system Demo.config Demo.accounts) := World.finished trace calls.length

theorem calmRun : CalmRun World.init world := by
  have h : trace.all (fun e ↦ decide (e.who ≠ none)) = true := by decide +kernel
  exact calmRun_of_reachable (reachable_serial (by decide +kernel)) fun e he ↦
    of_decide_eq_true (all_eq_true.1 h e he)

theorem active (pid : ℕ) (hpid : pid = 1 ∨ pid = 2) : ∀ H₀, H₀ <:+ world.trace →
    Started H₀ pid (.kick "g" "u___1" "u___2") →
      ∃ g, (Trace.db H₀).groups.get "g" = some g ∧ g.status ≠ groupStatusDismissed := by
  have h : ∀ H₀ ∈ trace.tails, ∀ pid ∈ [1, 2], Started H₀ pid (.kick "g" "u___1" "u___2") →
      (((Trace.db H₀).groups.get "g").any fun g ↦ decide (g.status ≠ groupStatusDismissed)) =
        true := by
    decide +kernel
  intro H₀ hs hstart
  have hany := h H₀ ((mem_tails _ _).2 hs) pid (by simpa using hpid) hstart
  obtain ⟨g, hg, hstatus⟩ := (Option.any_eq_true _ _).1 hany
  exact ⟨g, hg, of_decide_eq_true hstatus⟩

/-- Is this the return of a call by the process, with a result of this kind? -/
def returns (pid : ℕ) (f : Except Err Unit → Bool) : Entry (system Demo.config Demo.accounts) → Bool
  | ⟨some p, .ret (.done r), _⟩ => decide (p = pid) && f r
  | _ => false

theorem exists_return (pid : ℕ) (f : Except Err Unit → Bool)
    (h : trace.any (returns pid f) = true) :
    ∃ r d H₁, ⟨some pid, .ret (.done r), d⟩ :: H₁ <:+ world.trace ∧ f r = true := by
  obtain ⟨e, hmem, hret⟩ := any_eq_true.1 h
  obtain ⟨new, H₁, heq⟩ := append_of_mem hmem
  have hs : e :: H₁ <:+ world.trace := ⟨new, heq.symm⟩
  unfold returns at hret
  split at hret
  · simp only [Bool.and_eq_true, decide_eq_true_eq] at hret
    obtain ⟨rfl, hok⟩ := hret
    exact ⟨_, _, _, hs, hok⟩
  · cases hret

end KickDemo

theorem kick_authorisation_demo :
    (∃ w₁, Moment w₁ KickDemo.world ∧ Locks w₁ 1 "g" ∧ MayKick w₁.db "g" "u___1" "u___2") ∧
    ∃ w₁, Moment w₁ KickDemo.world ∧ Locks w₁ 2 "g" ∧ ¬ MayKick w₁.db "g" "u___1" "u___2" := by
  have hvalid : Identity.valid Demo.config.uuidString "u___2" := by decide
  have hfirst : Started KickDemo.world.trace 1 (.kick "g" "u___1" "u___2") := by decide +kernel
  have hsecond : Started KickDemo.world.trace 2 (.kick "g" "u___1" "u___2") := by decide +kernel
  obtain ⟨hone, -⟩ := kick_authorisation KickDemo.calmRun hfirst hvalid (by decide)
    (KickDemo.active 1 (.inl rfl))
  obtain ⟨htwo, -⟩ := kick_authorisation KickDemo.calmRun hsecond hvalid (by decide)
    (KickDemo.active 2 (.inr rfl))
  obtain ⟨r, d, H₁, hret, hr⟩ := KickDemo.exists_return 1 (fun r ↦ r.isOk) (by decide +kernel)
  obtain ⟨r', d', H₁', hret', hr'⟩ := KickDemo.exists_return 2
    (fun r ↦ match r with
      | .ok _ => false
      | .error err => !err.is errStoreFailed) (by decide +kernel)
  match r, hr, r', hr' with
  | .ok (), _, .error err, herr =>
    obtain ⟨_, hv, hone⟩ := hone _ _ _ hret
    cases hv
    obtain ⟨_, hv, htwo⟩ := htwo _ _ _ hret'
    cases hv
    rcases hone nofun with ⟨w₁, hmoment, hlock, hcommit, hok⟩ | ⟨hne, -⟩
    swap
    · exact absurd rfl hne
    have hmay := hok.1 rfl
    obtain ⟨now, hs⟩ := hcommit.2 hmay
    refine ⟨⟨w₁, hmoment, hlock, hmay⟩, ?_⟩
    have hfine : ∀ err', Except.error err = (.error err' : Except Err Unit) →
        err'.is errStoreFailed = false := by
      rintro _ ⟨⟩
      simpa using herr
    rcases htwo hfine with ⟨w₂, hmoment₂, hlock₂, -, hok₂⟩ | ⟨-, hnever⟩
    · exact ⟨w₂, hmoment₂, hlock₂, fun hmay ↦ nomatch hok₂.2 hmay⟩
    · exact absurd hmay (hnever w₁.trace ((List.suffix_cons _ _).trans hs))

end Nexo
