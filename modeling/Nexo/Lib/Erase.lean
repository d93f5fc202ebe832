import Nexo.Lib.Txn

/-!
# Erasing a process

A process that never changed the committed tables may as well not have run: dropping its entries
from the history and its program from the pool leaves a world that is reachable too, with the same
tables (`reachable_without`). The others lose nothing by it, since all they could notice is a lock
it held.

`running_or_returned` is the other thing the pool says about a history: a process that has started
and not returned still has a program to run.
-/

namespace Relational

variable {S : Signature} {Y : System S} {pid : ℕ}

namespace World

/-- The world without one of its processes. -/
def without (w : World Y) (pid : ℕ) : World Y :=
  ⟨w.trace.filter fun e ↦ e.who ≠ some pid, Function.update w.procs pid none⟩

/-- Nothing the process did changed the committed tables. -/
def LeftAlone (w : World Y) (pid : ℕ) : Prop :=
  ∀ e H, e :: H <:+ w.trace → e.who = some pid → e.db = Trace.db H

theorem without_log_self (w : World Y) (pid : ℕ) (ev : Event Y) (d : S.Db) :
    (w.log (some pid) ev d).without pid = w.without pid := by
  simp [without, log]

theorem without_log {who : Option ℕ} (h : who ≠ some pid) (w : World Y) (ev : Event Y) (d : S.Db) :
    (w.log who ev d).without pid = (w.without pid).log who ev d := by
  simp [without, log, h]

theorem without_set_self (w : World Y) (pid : ℕ) (p : Proc Y) :
    (w.set pid p).without pid = w.without pid := by
  simp [without, set]

theorem without_set {q : ℕ} (h : q ≠ pid) (w : World Y) (p : Proc Y) :
    (w.set q p).without pid = (w.without pid).set q p := by
  simp [without, set, Function.update_comm h]

theorem procs_without {q : ℕ} (h : q ≠ pid) (w : World Y) :
    (w.without pid).procs q = w.procs q :=
  Function.update_of_ne h _ _

theorem Unlocked.without {w : World Y} {q : ℕ} {ks : List S.Key} (h : w.Unlocked q ks) :
    (w.without pid).Unlocked q ks := by
  intro q' p hq' hp
  by_cases hpid : q' = pid
  · subst hpid
    simp [World.without] at hp
  · rw [procs_without hpid] at hp
    exact h q' p hq' hp

/-- **The tables are the same without it.** -/
theorem LeftAlone.db_without {w : World Y} (h : w.LeftAlone pid) : (w.without pid).db = w.db := by
  obtain ⟨H, procs⟩ := w
  change Trace.db (H.filter _) = Trace.db H
  induction H with
  | nil => rfl
  | cons e H ih =>
    have htail := ih fun e' H' hs hwho ↦ h e' H' (hs.trans (List.suffix_cons _ _)) hwho
    by_cases hwho : e.who = some pid
    · rw [List.filter_cons_of_neg (by simp [hwho]), htail, Trace.db_cons,
        h e H (List.suffix_refl _) hwho]
    · rw [List.filter_cons_of_pos (by simp [hwho])]
      rfl

end World

/-- **A step with a process erased**: nothing, if the process took it, and the same step otherwise.
-/
theorem Step.without {w w' : World Y} (h : Step Y w w') (hdb : (w.without pid).db = w.db) :
    w'.without pid = w.without pid ∨ Step Y (w.without pid) (w'.without pid) := by
  -- a step either moves a process, or moves it and is seen
  have moved : ∀ {q p}, (q ≠ pid → Step Y (w.without pid) ((w.without pid).set q p)) →
      (w.set q p).without pid = w.without pid ∨
        Step Y (w.without pid) ((w.set q p).without pid) := by
    intro q p hstep
    by_cases hq : q = pid
    · subst hq
      exact .inl (World.without_set_self w q p)
    · rw [World.without_set hq]
      exact .inr (hstep hq)
  have seen : ∀ {q ev d p},
      (q ≠ pid → Step Y (w.without pid) (((w.without pid).log (some q) ev d).set q p)) →
      ((w.log (some q) ev d).set q p).without pid = w.without pid ∨
        Step Y (w.without pid) (((w.log (some q) ev d).set q p).without pid) := by
    intro q ev d p hstep
    by_cases hq : q = pid
    · subst hq
      exact .inl (by rw [World.without_set_self, World.without_log_self])
    · rw [World.without_set hq, World.without_log (by simpa using hq)]
      exact .inr (hstep hq)
  have kept : ∀ {q p}, q ≠ pid → w.procs q = p → (w.without pid).procs q = p :=
    fun hq hp ↦ (World.procs_without hq w).trans hp
  cases h with
  | start c hfresh =>
    rw [← hdb]
    exact seen fun hq ↦ .start c (kept hq hfresh)
  | env henv =>
    rw [World.without_log (by simp)]
    exact .inr (.env (hdb ▸ henv))
  | ext hp r =>
    rw [← hdb]
    exact seen fun hq ↦ .ext (kept hq hp) r
  | stmt hp hlock =>
    rw [← hdb]
    exact seen fun hq ↦ .stmt (kept hq hp) hlock.without
  | stmtFail hp =>
    rw [← hdb]
    exact seen fun hq ↦ .stmtFail (kept hq hp)
  | begin hp => exact moved fun hq ↦ .begin (kept hq hp)
  | beginFail hp => exact moved fun hq ↦ .beginFail (kept hq hp)
  | txStmt hp hlock =>
    rw [← hdb]
    exact moved fun hq ↦ .txStmt (kept hq hp) hlock.without
  | txFail hp => exact moved fun hq ↦ .txFail (kept hq hp)
  | commit hp =>
    rw [← hdb]
    exact seen fun hq ↦ .commit (kept hq hp)
  | commitFail hp => exact moved fun hq ↦ .commitFail (kept hq hp)
  | rollback hp => exact moved fun hq ↦ .rollback (kept hq hp)
  | ret hp =>
    rw [← hdb]
    exact seen fun hq ↦ .ret (kept hq hp)

/-- **A process that left the tables alone may be erased.** -/
theorem reachable_without {w : World Y} (hw : Reachable Y w) (h : w.LeftAlone pid) :
    Reachable Y (w.without pid) := by
  induction hw with
  | init =>
    have hinit : (World.init : World Y).without pid = World.init := by
      simp [World.without, World.init]
    rw [hinit]
    exact .init
  | step _ hs ih =>
    have hleft : World.LeftAlone _ pid := fun e H he ↦ h e H (he.trans hs.suffix)
    rcases hs.without hleft.db_without with heq | hstep
    · rw [heq]
      exact ih hleft
    · exact .step (ih hleft) hstep

/-- **A process that has started and not returned is running.** -/
theorem running_or_returned {w : World Y} (hw : Reachable Y w) {e : Entry Y} (he : e ∈ w.trace)
    (hwho : e.who = some pid) :
    (∃ p tx, w.procs pid = some (.run p tx)) ∨ ∃ v d, ⟨some pid, .ret v, d⟩ ∈ w.trace := by
  induction hw with
  | init => cases he
  | @step w w' _ hs ih =>
    -- what is known of the process survives as long as another one moves
    have other : e ∈ w.trace → w'.procs pid = w.procs pid →
        (∃ p tx, w'.procs pid = some (.run p tx)) ∨ ∃ v d, ⟨some pid, .ret v, d⟩ ∈ w'.trace := by
      intro he hprocs
      rw [hprocs]
      exact (ih he).imp_right fun ⟨v, d, hret⟩ ↦ ⟨v, d, hs.suffix.subset hret⟩
    have moved : ∀ {q p tx}, (∀ e' ∈ w'.trace, e' ∈ w.trace ∨ e'.who = some q) →
        w'.procs = Function.update w.procs q (some (.run p tx)) →
        (∃ p tx, w'.procs pid = some (.run p tx)) ∨ ∃ v d, ⟨some pid, .ret v, d⟩ ∈ w'.trace := by
      intro q p tx htrace hprocs
      by_cases hq : q = pid
      · subst hq
        exact .inl ⟨p, tx, by rw [hprocs, Function.update_self]⟩
      · refine other ((htrace e he).resolve_right fun hwho' ↦ hq ?_) ?_
        · exact Option.some.inj (hwho'.symm.trans hwho)
        · rw [hprocs, Function.update_of_ne (Ne.symm hq)]
    have quiet : ∀ {q : ℕ}, ∀ e' ∈ w.trace, e' ∈ w.trace ∨ e'.who = some q := fun _ h ↦ .inl h
    have seen : ∀ {q : ℕ} {ev : Event Y} {d : S.Db},
        ∀ e' ∈ (⟨some q, ev, d⟩ : Entry Y) :: w.trace, e' ∈ w.trace ∨ e'.who = some q := by
      intro q ev d e' he'
      rcases List.mem_cons.1 he' with rfl | he'
      · exact .inr rfl
      · exact .inl he'
    cases hs with
    | env =>
      refine other ((List.mem_cons.1 he).resolve_left fun heq ↦ ?_) rfl
      rw [heq] at hwho
      cases hwho
    | @ret q v hp =>
      by_cases hq : q = pid
      · subst hq
        exact .inr ⟨v, _, List.mem_cons_self⟩
      · refine other ((seen e he).resolve_right fun hwho' ↦ hq ?_) ?_
        · exact Option.some.inj (hwho'.symm.trans hwho)
        · exact Function.update_of_ne (Ne.symm hq) _ _
    | start | ext | stmt | stmtFail | commit => exact moved seen rfl
    | begin | beginFail | txStmt | txFail | commitFail | rollback => exact moved quiet rfl

end Relational
