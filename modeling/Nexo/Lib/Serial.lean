import Nexo.Lib.Logic
import Mathlib.Logic.Relation
import Mathlib.Data.Fintype.EquivFin

/-!
# Runs in which one process moves

Three things a single process can do while the others stand still.

* **It can run by itself from start to end.** `solo` is the function that does so when no other
  process holds a key and the store fails nowhere, and `serial` runs a list of calls one after the
  other. Both produce reachable worlds, so a concrete history is obtained by evaluation.
* **It can always finish.** In a system that meets its specification no process gets stuck: from
  every reachable world, every running call can be continued to its return, whatever keys others
  hold (`canReturn`).
* **If it only reads, nothing stops it.** It runs to its return without a failure (`OnlyReads.run`).
-/

namespace Relational

open List

variable {S : Signature} {Y : System S} {w : World Y} {pid : ℕ}

/-! ### Running alone -/

/-- Run a program to its return, with the given answers from outside. -/
def solo (Y : System S) (pid : ℕ) (ans : ∀ e, S.ExtRes e) :
    Program S Y.Val → Option (Tx S) → Trace Y → Option (Trace Y)
  | .ret v, none, H => some (⟨some pid, .ret v, Trace.db H⟩ :: H)
  | .call (.ext e) k, none, H =>
    solo Y pid ans (k (ans e)) none (⟨some pid, .ext e (ans e), Trace.db H⟩ :: H)
  | .call (.stmt s) k, none, H =>
    solo Y pid ans (k (S.exec s (Trace.db H)).1) none
      (⟨some pid, .stmt s (S.exec s (Trace.db H)).1, (S.exec s (Trace.db H)).2⟩ :: H)
  | .call .begin k, none, H => solo Y pid ans (k true) (some ⟨[], []⟩) H
  | .call (.stmt s) k, some tx, H =>
    solo Y pid ans (k (S.exec s (S.run tx.done (Trace.db H))).1)
      (some ⟨tx.done ++ [s], S.locks s ++ tx.held⟩) H
  | .call .commit k, some tx, H =>
    solo Y pid ans (k true) none (⟨some pid, .commit, S.run tx.done (Trace.db H)⟩ :: H)
  | .call .rollback k, some _, H => solo Y pid ans (k ()) none H
  | _, _, _ => none

/-- The world in which the processes below `n` have returned and no other has started. -/
def World.finished (H : Trace Y) (n : ℕ) : World Y :=
  ⟨H, fun pid ↦ if pid < n then some .halted else none⟩

/-- The world in which, besides, process `n` is running. -/
def World.running (H : Trace Y) (n : ℕ) (p : Program S Y.Val) (tx : Option (Tx S)) : World Y :=
  (World.finished H n).set n (.run p tx)

theorem World.unlocked_running (H : Trace Y) (n : ℕ) (p : Program S Y.Val) (tx : Option (Tx S))
    (ks : List S.Key) : (World.running H n p tx).Unlocked n ks := by
  intro q r hq hr k _
  rw [World.running, World.procs_set, Function.update_of_ne hq] at hr
  obtain ⟨-, rfl⟩ : q < n ∧ Proc.halted = r := by simpa [World.finished] using hr
  exact not_mem_nil

theorem World.set_running (H : Trace Y) (n : ℕ) (p p' : Program S Y.Val) (tx tx' : Option (Tx S)) :
    (World.running H n p tx).set n (.run p' tx') = World.running H n p' tx' := by
  simp [World.running, World.set]

theorem World.set_halted (H : Trace Y) (n : ℕ) (p : Program S Y.Val) (tx : Option (Tx S)) :
    (World.running H n p tx).set n .halted = World.finished H (n + 1) := by
  simp only [World.running, World.set, World.finished, Function.update_idem]
  congr 1
  funext q
  by_cases hq : q = n
  · simp [hq]
  · rw [Function.update_of_ne hq]
    have hlt : q < n + 1 ↔ q < n := by omega
    simp only [hlt]

theorem World.procs_running (H : Trace Y) (n : ℕ) (p : Program S Y.Val) (tx : Option (Tx S)) :
    (World.running H n p tx).procs n = some (.run p tx) :=
  World.procs_set_self _ _ _

/-- **A run alone is a run.** -/
theorem reachable_of_solo {n : ℕ} {ans : ∀ e, S.ExtRes e} {H' : Trace Y} (p : Program S Y.Val) :
    ∀ {tx : Option (Tx S)} {H : Trace Y}, Reachable Y (World.running H n p tx) →
      solo Y n ans p tx H = some H' → Reachable Y (World.finished H' (n + 1)) := by
  induction p with
  | ret v =>
    intro tx H hw hrun
    cases tx with
    | some tx => cases hrun
    | none =>
      cases hrun
      have hstep := Step.ret (World.procs_running H n (.ret v) none)
      rw [← World.set_halted _ n (.ret v) none]
      exact .step hw hstep
  | call o k ih =>
    intro tx H hw hrun
    have hp := World.procs_running H n (.call o k) tx
    cases tx with
    | none =>
      cases o with
      | ext e =>
        refine ih (ans e) ?_ hrun
        have h := Reachable.step hw (Step.ext hp (ans e))
        exact World.set_running _ n _ _ none none ▸ h
      | stmt s =>
        refine ih _ ?_ hrun
        have h := Reachable.step hw (Step.stmt hp (World.unlocked_running H n _ _ _))
        exact World.set_running _ n _ _ none none ▸ h
      | begin =>
        refine ih true ?_ hrun
        exact World.set_running _ n _ _ none _ ▸ Reachable.step hw (Step.begin hp)
      | commit | rollback => cases hrun
    | some tx =>
      cases o with
      | ext e => cases hrun
      | stmt s =>
        refine ih _ ?_ hrun
        have h := Reachable.step hw (Step.txStmt hp (World.unlocked_running H n _ _ _))
        exact World.set_running _ n _ _ (some tx) _ ▸ h
      | begin => cases hrun
      | commit =>
        refine ih true ?_ hrun
        have h := Reachable.step hw (Step.commit hp)
        exact World.set_running _ n _ _ (some tx) none ▸ h
      | rollback =>
        refine ih () ?_ hrun
        exact World.set_running _ n _ _ (some tx) none ▸ Reachable.step hw (Step.rollback hp)

/-- Run calls one after the other, each with its answers from outside. -/
def serial (Y : System S) : List (Y.Call × ∀ e, S.ExtRes e) → ℕ → Trace Y → Option (Trace Y)
  | [], _, H => some H
  | (c, ans) :: rest, n, H =>
    (solo Y n ans (Y.prog c) none (⟨some n, .start c, Trace.db H⟩ :: H)).bind
      (serial Y rest (n + 1))

theorem reachable_of_serial {calls : List (Y.Call × ∀ e, S.ExtRes e)} {H' : Trace Y} :
    ∀ {n : ℕ} {H : Trace Y}, Reachable Y (World.finished H n) → serial Y calls n H = some H' →
      Reachable Y (World.finished H' (n + calls.length)) := by
  induction calls with
  | nil =>
    intro n H hw hrun
    cases hrun
    exact hw
  | cons call rest ih =>
    obtain ⟨c, ans⟩ := call
    intro n H hw hrun
    obtain ⟨H₁, hsolo, hrest⟩ := Option.bind_eq_some_iff.1 hrun
    have hstart : Reachable Y (World.running (⟨some n, .start c, Trace.db H⟩ :: H) n (Y.prog c) none) :=
      .step hw (Step.start c (by simp [World.finished]))
    have h := ih (reachable_of_solo _ hstart hsolo) hrest
    rwa [length_cons, show n + (rest.length + 1) = n + 1 + rest.length by omega]

theorem reachable_finished_zero : Reachable Y (World.finished [] 0) := by
  have h : (World.finished [] 0 : World Y) = World.init := by
    simp [World.finished, World.init]
  rw [h]
  exact .init

/-- A run of calls from the beginning. -/
theorem reachable_serial {calls : List (Y.Call × ∀ e, S.ExtRes e)}
    (h : (serial Y calls 0 []).isSome) :
    Reachable Y (World.finished ((serial Y calls 0 []).getD []) calls.length) := by
  obtain ⟨H, hH⟩ := Option.isSome_iff_exists.1 h
  have hreach := reachable_of_serial reachable_finished_zero hH
  rw [Nat.zero_add] at hreach
  rwa [hH]

/-! ### Running to the end -/

theorem Reachable.trans {w' : World Y} (hw : Reachable Y w)
    (h : Relation.ReflTransGen (Step Y) w w') : Reachable Y w' := by
  induction h with
  | refl => exact hw
  | tail _ hs ih => exact .step ih hs

theorem suffix_of_steps {w' : World Y} (h : Relation.ReflTransGen (Step Y) w w') :
    w.trace <:+ w'.trace := by
  induction h with
  | refl => exact suffix_refl _
  | tail _ hs ih => exact ih.trans hs.suffix

/-- A call that is running can be continued to its return by its own steps. -/
def CanReturn (Y : System S) (pid : ℕ) (w : World Y) : Prop :=
  ∃ w' new v, Relation.ReflTransGen (Step Y) w w' ∧ (∀ e ∈ new, e.who = some pid) ∧
    w'.trace = ⟨some pid, .ret v, Trace.db (new ++ w.trace)⟩ :: (new ++ w.trace)

theorem CanReturn.step {w' : World Y} (hs : Step Y w w') {new : Trace Y}
    (hnew : ∀ e ∈ new, e.who = some pid) (htrace : w'.trace = new ++ w.trace)
    (h : CanReturn Y pid w') : CanReturn Y pid w := by
  obtain ⟨w'', new', v, hsteps, hnew', htrace'⟩ := h
  refine ⟨w'', new' ++ new, v, .head hs hsteps, fun e he ↦ ?_, ?_⟩
  · rcases mem_append.1 he with he | he
    · exact hnew' e he
    · exact hnew e he
  · rw [htrace', htrace, append_assoc]

/-- **No call gets stuck.** Where the store could block, it can also fail. -/
theorem canReturn {P : Spec Y} (hP : P.Sound) (ans : ∀ e, S.ExtRes e) (p : Program S Y.Val) :
    ∀ {w : World Y} {tx : Option (Tx S)}, P.Inv w →
      w.procs pid = some (.run p tx) → CanReturn Y pid w := by
  induction p with
  | ret v =>
    intro w tx hw hp
    cases tx with
    | none => exact ⟨_, [], v, .single (.ret hp), by simp, rfl⟩
    | some tx =>
      -- a program does not end inside a transaction
      obtain ⟨p₀, hrep, hwp⟩ := hw.good pid _ hp
      have hcur := hrep.wp (hwp w.trace (Spec.Later.refl hw.valid))
      cases hcur.1
  | call o k ih =>
    intro w tx hw hp
    have own : ∀ {ev : Event Y} {d : S.Db}, ∀ e ∈ [(⟨some pid, ev, d⟩ : Entry Y)],
        e.who = some pid := by simp
    have next : ∀ {w' : World Y} {r tx'} (new : Trace Y), Step Y w w' →
        (∀ e ∈ new, e.who = some pid) → w'.trace = new ++ w.trace →
        w'.procs pid = some (.run (k r) tx') → CanReturn Y pid w :=
      fun _ hs hnew htrace hp' ↦ (ih _ (hw.step hP hs) hp').step hs hnew htrace
    cases tx with
    | none =>
      have hgood := hw.good pid _ hp
      cases o with
      | ext e => exact next [_] (.ext hp (ans e)) own rfl (World.procs_set_self _ _ _)
      | stmt s => exact next [_] (.stmtFail hp) own rfl (World.procs_set_self _ _ _)
      | begin => exact next [] (.beginFail hp) (by simp) rfl (World.procs_set_self _ _ _)
      | commit | rollback => exact hgood.elim
    | some tx =>
      obtain ⟨p₀, hrep, hwp⟩ := hw.good pid _ hp
      have hcur := hrep.wp (hwp w.trace (Spec.Later.refl hw.valid))
      cases o with
      | ext e => exact hcur.elim
      | stmt s => exact next [] (.txFail hp) (by simp) rfl (World.procs_set_self _ _ _)
      | begin => exact hcur.elim
      | commit => exact next [_] (.commit hp) own rfl (World.procs_set_self _ _ _)
      | rollback => exact next [] (.rollback hp) (by simp) rfl (World.procs_set_self _ _ _)

/-! ### Reading -/

/-- Programs that only read: no transaction, no lock, no effect. -/
inductive OnlyReads {α : Type} : Program S α → Prop where
  | ret (v : α) : OnlyReads (.ret v)
  | stmt {s : S.Stmt} {k : S.Res s → Program S α} (hlock : S.locks s = [])
      (hpure : ∀ d, (S.exec s d).2 = d) (hk : ∀ r, OnlyReads (k r)) : OnlyReads (.call (.stmt s) k)

theorem OnlyReads.bind {α β : Type} {p : Program S α} {f : α → Program S β} (hp : OnlyReads p)
    (hf : ∀ a, OnlyReads (f a)) : OnlyReads (p >>= f) := by
  induction hp with
  | ret v => exact hf v
  | stmt hlock hpure _ ih => exact .stmt hlock hpure ih

/-- **A reading program runs through**, whatever the others hold, and sees the tables as they are.
-/
theorem OnlyReads.run {p : Program S Y.Val} (hp : OnlyReads p)
    (hw : w.procs pid = some (.run p none)) :
    ∃ w' new v, Relation.ReflTransGen (Step Y) w w' ∧
      w'.trace = ⟨some pid, .ret v, w.db⟩ :: (new ++ w.trace) ∧
      ∀ e ∈ new, e.who = some pid ∧ e.db = w.db ∧ ∃ s, e.event = .stmt s (S.exec s w.db).1 := by
  induction hp generalizing w with
  | ret v => exact ⟨_, [], v, .single (.ret hw), rfl, by simp⟩
  | @stmt s k hlock hpure _ ih =>
    have hstep := Step.stmt hw (by rw [hlock]; intro q p _ _ k hk; cases hk)
    obtain ⟨w', new, v, hsteps, htrace, hnew⟩ := ih _ (World.procs_set_self _ _ _)
    have hdb : ((w.log (some pid) (.stmt s (S.exec s w.db).1) (S.exec s w.db).2).set pid
        (.run (k (S.exec s w.db).1) none)).db = w.db := hpure w.db
    rw [hdb] at htrace hnew
    refine ⟨w', new ++ [⟨some pid, .stmt s (S.exec s w.db).1, (S.exec s w.db).2⟩], v,
      .head hstep hsteps, by simpa using htrace, ?_⟩
    intro e he
    rcases mem_append.1 he with he | he
    · exact hnew e he
    · obtain rfl := mem_singleton.1 he
      exact ⟨rfl, hpure w.db, s, rfl⟩

/-- Whoever is in the pool has started. -/
theorem exists_entry (hw : Reachable Y w) {p : Proc Y} (hp : w.procs pid = some p) :
    ∃ e ∈ w.trace, e.who = some pid := by
  induction hw generalizing p with
  | init => cases hp
  | @step w w' _ hs ih =>
    rcases hold : w.procs pid with - | p₀
    · obtain ⟨c, rfl⟩ := hs.of_fresh hold hp
      exact ⟨_, mem_cons_self, rfl⟩
    · obtain ⟨e, he, hwho⟩ := ih hold
      exact ⟨e, hs.suffix.subset he, hwho⟩

/-- There is always room for one more call. -/
theorem exists_fresh (hw : Reachable Y w) :
    ∃ pid, w.procs pid = none ∧ ∀ e ∈ w.trace, e.who ≠ some pid := by
  obtain ⟨pid, hpid⟩ := Infinite.exists_notMem_finset (w.trace.filterMap (·.who)).toFinset
  have hfresh : ∀ e ∈ w.trace, e.who ≠ some pid := fun e he hwho ↦
    hpid (mem_toFinset.2 (mem_filterMap.2 ⟨e, he, hwho⟩))
  refine ⟨pid, ?_, hfresh⟩
  rcases hp : w.procs pid with - | p
  · rfl
  · obtain ⟨e, he, hwho⟩ := exists_entry hw hp
    exact absurd hwho (hfresh e he)

end Relational
