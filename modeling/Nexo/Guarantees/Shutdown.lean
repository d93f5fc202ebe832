import Nexo.Gateway.Shutdown

/-!
# Nothing is called once `Shutdown` has returned

Every goroutine of the gateway calls a dependency only while a unit of the work group is held for it
(`Program.safe`, by evaluation), so the counter is what they hold together. `Shutdown` returns nil
only after the counter was seen at zero in a group that is sealed (`Settled`); nothing registers
then, so that it stays at zero.
-/

namespace Nexo.Gateway.Shutdown

open Goroutine Machine Option

variable {s s' : State}

/-- **Every call of a goroutine is covered by a unit.** -/
theorem Program.safe (p : Program) : p.code.safe false [] 0 = true := by
  cases p <;> decide

theorem drainTimer_safe : drainTimer.safe false [] 0 = true := by decide

/-- The group is sealed. -/
def Pc.past : Pc → Bool
  | .wait | .select | .err | .purge _ | .purging _ | .deferred _ | .returned _ => true
  | _ => false

/-- No error was found so far. -/
def Pc.succeeds : Pc → Bool
  | .purge failed | .purging failed | .deferred failed | .returned failed => !failed
  | _ => false

/-- `PurgeNode` is waited for, or an error was found. -/
def Pc.excuses : Pc → Bool
  | .purging _ => true
  | .deferred failed | .returned failed => failed
  | _ => false

/-- **Where `Shutdown` stands, and what it has seen.** -/
structure Settled (s : State) : Prop where
  pool : s.pool.Safe
  sealed : s.pc.past = true → s.pool.group.sealed = true
  waiter : s.waiter ≠ .none → s.pc.past = true
  closed : s.waiter = .closed → s.pool.group.count = 0
  err : s.pc = .err → s.waiter = .closed ∨ s.deadline = true
  succeeds : s.pc.succeeds = true → s.waiter = .closed
  purge : s.purge = .calling → s.pc.excuses = true

section

variable (h : Settled s)
include h

/-- Refusing operations changes nothing of this. -/
theorem Settled.refuse : Settled s.refuse :=
  ⟨h.pool, h.sealed, h.waiter, h.closed, h.err, h.succeeds, h.purge⟩

/-- The other fields do not matter. -/
theorem Settled.congr (hpool : s'.pool = s.pool) (hpc : s'.pc = s.pc)
    (hwaiter : s'.waiter = s.waiter) (hdeadline : s.deadline = true → s'.deadline = true)
    (hpurge : s'.purge = s.purge) : Settled s' := by
  refine ⟨hpool ▸ h.pool, ?_, ?_, ?_, ?_, ?_, ?_⟩
  · rw [hpc, hpool]
    exact h.sealed
  · rw [hwaiter, hpc]
    exact h.waiter
  · rw [hwaiter, hpool]
    exact h.closed
  · rw [hpc, hwaiter]
    exact fun herr ↦ (h.err herr).imp_right hdeadline
  · rw [hpc, hwaiter]
    exact h.succeeds
  · rw [hpurge, hpc]
    exact h.purge

/-- Before the group is sealed, nothing is waited for. -/
theorem Settled.waiter_eq_none (hpc : s.pc.past = false) : s.waiter = .none := by
  by_contra hne
  exact absurd (hpc.symm.trans (h.waiter hne)) Bool.false_ne_true

theorem Settled.not_calling (hpc : s.pc.excuses = false) : s.purge ≠ .calling :=
  fun hcalling ↦ absurd (hpc.symm.trans (h.purge hcalling)) Bool.false_ne_true

/-- A statement that only moves, before the group is sealed. -/
theorem Settled.moves {pc : Pc} (hold : s.pc.past = false) (hpast : pc.past = false) :
    Settled { s with pc } := by
  have hexcuses : s.pc.excuses = false := by
    cases hpc : s.pc with
    | purging | deferred | returned => rw [hpc] at hold; cases hold
    | _ => rfl
  refine ⟨h.pool, fun hp ↦ ?_, fun hne ↦ absurd (h.waiter_eq_none hold) hne, h.closed, fun hpc ↦ ?_,
    fun hs ↦ ?_, fun hcalling ↦ absurd hcalling (h.not_calling hexcuses)⟩
  · exact absurd (hpast.symm.trans hp) Bool.false_ne_true
  · rw [show pc = .err from hpc] at hpast
    cases hpast
  · cases pc with
    | purge | purging | deferred | returned => cases hpast
    | _ => cases hs

/-- A statement that only moves, after it. -/
theorem Settled.moves_past {pc : Pc} (hold : s.pc.past = true) (hpast : pc.past = true)
    (herr : pc = .err → s.waiter = .closed ∨ s.deadline = true)
    (hsucceeds : pc.succeeds = true → s.waiter = .closed) (hpurge : s.purge = .calling → pc.excuses = true) :
    Settled { s with pc } :=
  ⟨h.pool, fun _ ↦ h.sealed hold, fun _ ↦ hpast, h.closed, herr, hsucceeds, hpurge⟩

theorem Settled.start {code : Code Call} (hcode : code.safe false [] 0 = true) :
    Settled { s with pool := s.pool.start code } :=
  ⟨h.pool.start hcode, h.sealed, h.waiter, h.closed, h.err, h.succeeds, h.purge⟩

theorem Settled.mainNext {b : Bool} (hnext : s.mainNext b = some s') : Settled s' := by
  have hmoves (pc : Pc) (hold : s.pc.past = false) (hpast : pc.past = false)
      (hs' : some { s with pc } = some s') : Settled s' := some.inj hs' ▸ h.moves hold hpast
  unfold State.mainNext at hnext
  split at hnext
  next => cases hnext
  next => cases hnext
  next hpc => exact hmoves .record (by rw [hpc]; rfl) rfl hnext
  next hpc =>
    cases hnext
    have hmoved : Settled { (if s.deadline = true then s.refuse else s) with pc := .cancelRun } := by
      split
      · exact h.refuse.moves (by rw [State.refuse, hpc]; rfl) rfl
      · exact h.moves (by rw [hpc]; rfl) rfl
    exact hmoved.congr rfl rfl rfl id rfl
  next hpc => exact hmoves .closeUsers (by rw [hpc]; rfl) rfl hnext
  next hpc => exact hmoves .arm (by rw [hpc]; rfl) rfl hnext
  next hpc =>
    cases hnext
    have hmoved : Settled { s with pc := .drain } := h.moves (by rw [hpc]; rfl) rfl
    exact hmoved.congr rfl rfl rfl id rfl
  next hpc =>
    split at hnext
    next =>
      cases hnext
      exact h.start drainTimer_safe
    next => exact hmoves .poll (by rw [hpc]; rfl) rfl hnext
  next hpc => exact hmoves _ (by rw [hpc]; rfl) (by cases b <;> rfl) hnext
  next hpc => exact hmoves _ (by rw [hpc]; rfl) (by cases s.deadline <;> rfl) hnext
  next hpc =>
    cases hnext
    exact h.refuse.moves (by rw [State.refuse, hpc]; rfl) rfl
  next hpc => exact hmoves .cancelOps (by rw [hpc]; rfl) rfl hnext
  next hpc =>
    cases hnext
    exact h.refuse.moves (by rw [State.refuse, hpc]; rfl) rfl
  next hpc => exact hmoves .seal_ (by rw [hpc]; rfl) rfl hnext
  next hpc =>
    -- the group is sealed
    cases hnext
    refine ⟨h.pool, fun _ ↦ rfl, fun _ ↦ rfl, h.closed, nofun, nofun, fun hcalling ↦ ?_⟩
    · exact absurd hcalling (h.not_calling (by rw [hpc]; rfl))
  next hpc =>
    cases hnext
    refine ⟨h.pool, fun _ ↦ h.sealed (by rw [hpc]; rfl), fun _ ↦ rfl, nofun, nofun,
      nofun, fun hcalling ↦ ?_⟩
    · exact absurd hcalling (h.not_calling (by rw [hpc]; rfl))
  next hpc =>
    -- the select
    split at hnext
    next hcase =>
      cases hnext
      refine h.moves_past (by rw [hpc]; rfl) rfl (fun _ ↦ ?_) nofun fun hcalling ↦ ?_
      · exact hcase.imp And.right And.right
      · exact absurd hcalling (h.not_calling (by rw [hpc]; rfl))
    next => cases hnext
  next hpc =>
    cases hnext
    refine h.moves_past (by rw [hpc]; rfl) rfl nofun (fun hs ↦ ?_) fun hcalling ↦ ?_
    · -- without an error, the other case was taken
      have hdeadline : s.deadline = false := by simpa [Pc.succeeds] using hs
      exact (h.err hpc).resolve_right (by rw [hdeadline]; decide)
    · exact absurd hcalling (h.not_calling (by rw [hpc]; rfl))
  next failed hpc =>
    have hcloses (hs : (!failed) = true) : s.waiter = .closed := h.succeeds (by rw [hpc]; exact hs)
    have hnone : s.purge ≠ .calling := h.not_calling (by rw [hpc]; rfl)
    split at hnext
    next =>
      cases hnext
      exact h.moves_past (by rw [hpc]; rfl) rfl nofun hcloses
        fun hcalling ↦ absurd hcalling hnone
    next =>
      cases hnext
      exact ⟨h.pool, fun _ ↦ h.sealed (by rw [hpc]; rfl), fun _ ↦ rfl, h.closed, nofun,
        hcloses, fun _ ↦ rfl⟩
  next failed hpc =>
    have hold : s.pc.past = true := by rw [hpc]; rfl
    split at hnext
    next ok hpurge =>
      cases hnext
      refine h.moves_past hold rfl nofun (fun hs ↦ h.succeeds ?_) fun hcalling ↦ ?_
      · rw [hpc]
        simp only [Pc.succeeds, Bool.not_or, Bool.and_eq_true] at hs ⊢
        exact hs.1
      · exact absurd (hpurge.symm.trans hcalling) (by simp)
    next => cases hnext
    next =>
      split at hnext
      next =>
        cases hnext
        exact h.moves_past hold rfl nofun nofun fun _ ↦ rfl
      next => cases hnext
  next failed hpc =>
    have hmoved : Settled { s with pc := .returned failed } := by
      refine h.moves_past (by rw [hpc]; rfl) rfl nofun (fun hs ↦ h.succeeds ?_)
        fun hcalling ↦ ?_
      · rw [hpc]
        exact hs
      · have hexcuses := h.purge hcalling
        rw [hpc] at hexcuses
        exact hexcuses
    split at hnext
    next =>
      cases hnext
      exact hmoved.congr rfl rfl rfl id rfl
    next =>
      cases hnext
      exact hmoved
    next => cases hnext

theorem Settled.hardNext (hnext : s.hardNext = some s') : Settled s' := by
  unfold State.hardNext at hnext
  split at hnext
  all_goals try split at hnext
  all_goals cases hnext
  all_goals first
    | exact h.congr rfl rfl rfl id rfl
    -- the statement that refuses the operations
    | exact h.refuse.congr rfl rfl rfl id rfl

/-- **Every step keeps it.** -/
theorem Settled.next {e : Event} (hnext : s.next e = some s') : Settled s' := by
  cases e with
  | start p =>
    cases hnext
    exact h.start p.safe
  | step k c =>
    obtain ⟨pool, hpool, rfl⟩ := map_eq_some_iff.1 hnext
    obtain ⟨hsafe, hsealed, hle⟩ := h.pool.next hpool
    refine ⟨hsafe, fun hpast ↦ hsealed.trans (h.sealed hpast), h.waiter, fun hclosed ↦ ?_, h.err, h.succeeds,
      h.purge⟩
    -- the counter was at zero, and does not grow
    have hpast := h.waiter (by rw [hclosed]; decide)
    have hzero := h.closed hclosed
    have hcount := hle (h.sealed hpast)
    have hnonneg := hsafe.count_nonneg
    dsimp only
    omega
  | shutdown =>
    obtain ⟨hidle, ⟨⟩⟩ := ite_none_right_eq_some.1 hnext
    exact h.moves (by rw [hidle]; rfl) rfl
  | main b => exact h.mainNext hnext
  | hard => exact h.hardNext hnext
  | expire =>
    cases hnext
    split
    · exact h.refuse.congr rfl rfl rfl (fun _ ↦ rfl) rfl
    · exact h.congr rfl rfl rfl (fun _ ↦ rfl) rfl
  | waited =>
    obtain ⟨hguard, ⟨⟩⟩ := ite_none_right_eq_some.1 hnext
    have hpast := h.waiter (by rw [hguard.1]; decide)
    exact ⟨h.pool, h.sealed, fun _ ↦ hpast, fun _ ↦ hguard.2, fun _ ↦ .inl rfl, fun _ ↦ rfl, h.purge⟩
  | purged ok =>
    obtain ⟨-, ⟨⟩⟩ := ite_none_right_eq_some.1 hnext
    exact ⟨h.pool, h.sealed, h.waiter, h.closed, h.err, h.succeeds, nofun⟩

end

theorem Settled.of_reachable (h : node.Reachable s) : Settled s := by
  refine System.invariant (I := Settled) (fun s₀ hinit ↦ ?_) (fun s e s' _ hs hnext ↦ hs.next hnext) h
  obtain rfl : s₀ = {} := hinit
  exact ⟨⟨[], .nil, rfl⟩, nofun, fun hne ↦ absurd rfl hne, fun _ ↦ rfl, nofun, nofun,
    nofun⟩

/-- **When `Shutdown` has returned nil, nothing is called.** -/
theorem Settled.not_calls (h : Settled s) (hpc : s.pc = .returned false) : ¬ s.Calls := by
  have hclosed : s.waiter = .closed := h.succeeds (by rw [hpc]; rfl)
  rintro (⟨p, hp, hcalls⟩ | hcalling)
  · exact absurd ((h.pool.quiet (h.closed hclosed) p hp).symm.trans hcalls) Bool.false_ne_true
  · exact h.not_calling (by rw [hpc]; rfl) hcalling

/-- `Shutdown` does not register anything, and does not open the group again. -/
theorem group_mainNext {b : Bool} (h : s.mainNext b = some s') :
    s'.pool.group.count = s.pool.group.count ∧
      (s.pool.group.sealed = true → s'.pool.group.sealed = true) := by
  unfold State.mainNext at h
  split at h
  all_goals try split at h
  all_goals try split at h
  all_goals cases h
  all_goals first
    | exact ⟨rfl, id⟩
    -- the statement that seals it
    | exact ⟨rfl, fun _ ↦ rfl⟩

theorem group_hardNext (h : s.hardNext = some s') :
    s'.pool.group.count = s.pool.group.count ∧
      (s.pool.group.sealed = true → s'.pool.group.sealed = true) := by
  unfold State.hardNext at h
  split at h
  all_goals try split at h
  all_goals cases h
  all_goals exact ⟨rfl, id⟩

/-- **A group that is sealed stays sealed and does not grow.** -/
theorem Settled.group {e : Event} (h : Settled s) (hnext : s.next e = some s')
    (hsealed : s.pool.group.sealed = true) :
    s'.pool.group.sealed = true ∧ s'.pool.group.count ≤ s.pool.group.count := by
  have hsame (hgroup : s'.pool.group.count = s.pool.group.count ∧
      (s.pool.group.sealed = true → s'.pool.group.sealed = true)) :
      s'.pool.group.sealed = true ∧ s'.pool.group.count ≤ s.pool.group.count :=
    ⟨hgroup.2 hsealed, Int.le_of_eq hgroup.1⟩
  cases e with
  | step k c =>
    obtain ⟨pool, hpool, rfl⟩ := map_eq_some_iff.1 hnext
    obtain ⟨-, hstays, hle⟩ := h.pool.next hpool
    exact ⟨hstays.trans hsealed, hle hsealed⟩
  | main b => exact hsame (group_mainNext hnext)
  | hard => exact hsame (group_hardNext hnext)
  | start p =>
    cases hnext
    exact hsame ⟨rfl, id⟩
  | expire =>
    cases hnext
    refine hsame ?_
    split <;> exact ⟨rfl, id⟩
  | shutdown | waited | purged =>
    obtain ⟨-, ⟨⟩⟩ := ite_none_right_eq_some.1 hnext
    exact hsame ⟨rfl, id⟩

/-- `Shutdown` returns once. -/
theorem returned_next {e : Event} {failed : Bool} (hnext : s.next e = some s') (hpc : s.pc = .returned failed) :
    s'.pc = .returned failed := by
  cases e with
  | start p => exact some.inj hnext ▸ hpc
  | step k c =>
    obtain ⟨pool, -, rfl⟩ := map_eq_some_iff.1 hnext
    exact hpc
  | shutdown =>
    rw [State.next, hpc] at hnext
    cases hnext
  | main b =>
    rw [State.next, State.mainNext, hpc] at hnext
    cases hnext
  | hard =>
    simp only [State.next, State.hardNext] at hnext
    split at hnext
    all_goals try split at hnext
    all_goals cases hnext
    all_goals exact hpc
  | expire =>
    cases hnext
    split <;> exact hpc
  | waited | purged =>
    obtain ⟨-, ⟨⟩⟩ := ite_none_right_eq_some.1 hnext
    exact hpc

/-- **Shutdown quiesces.** In every run the counter of the work group is never negative, and nothing
is registered in a group that is sealed; and once `Shutdown` has returned nil, no call of a
dependency is in progress, then or ever after. -/
theorem shutdown_quiescence (h : node.Reachable s) :
    0 ≤ s.pool.group.count ∧
    (∀ e s', s.next e = some s' → s.pool.group.sealed = true →
      s'.pool.group.sealed = true ∧ s'.pool.group.count ≤ s.pool.group.count) ∧
    (s.pc = .returned false → ∀ t s', node.Path s t s' → ¬ s'.Calls) := by
  have hsettled := Settled.of_reachable h
  refine ⟨hsettled.pool.count_nonneg, fun e s' hnext hsealed ↦ hsettled.group hnext hsealed, ?_⟩
  intro hpc t s' hpath
  obtain ⟨hreach, hpc'⟩ := hpath.keeps (P := fun s ↦ s.pc = .returned false)
    (fun s e s' _ hpc hnext ↦ returned_next hnext hpc) h hpc
  exact (Settled.of_reachable hreach).not_calls hpc'

namespace ShutdownDemo

/-- An upgrade callback is preempted after `Adopt`, and `Shutdown` runs to its end meanwhile. -/
def preempted : List Event :=
  [.start .upgrade, .step 0 (.go false), .step 0 (.go false), .shutdown, .main true, .main true, .main true,
    .main true, .main true, .main false, .main false, .main true, .main true, .main true, .main true,
    .main true, .waited, .main true, .main true, .main false, .purged true, .main true, .main true]

end ShutdownDemo

open ShutdownDemo in
theorem shutdown_quiescence_demo :
    ∃ s, System.replay State.next {} preempted = some s ∧ s.pool.procs.length = 1 ∧
      s.pc = .returned false ∧ ∀ t s', node.Path s t s' → ¬ s'.Calls := by
  have hrun : (System.replay State.next {} preempted).map (fun s ↦ (s.pool.procs.length, s.pc)) =
      some (1, .returned false) := by
    decide +kernel
  obtain ⟨s, hs, heq⟩ := Option.map_eq_some_iff.1 hrun
  obtain ⟨hlength, hpc⟩ := Prod.mk.inj heq
  have hreach : node.Reachable s := System.reachable_of_replay hs
  exact ⟨s, hs, hlength, hpc, (shutdown_quiescence hreach).2.2 hpc⟩

end Nexo.Gateway.Shutdown
