import Mathlib.Algebra.BigOperators.Group.List.Basic
import Mathlib.Data.List.Induction

/-!
# Transition systems and pools of processes

A system is a set of initial states and a labelled step relation. A **path** records the labels of
its steps, newest first; a state is reachable when a path leads to it from an initial state. What
one step keeps, a path keeps (`Path.keeps`), and what holds initially besides holds of every
reachable state (`invariant`).

Processes that come and go are the entries of a list, the **pool**: a new process is appended, a
step of process `i` replaces entry `i`. The weight of a pool in a commutative monoid is the sum of
the weights of its entries, and a step changes it by the weight of the entry it replaces
(`tally_set`).
-/

namespace Machine

open List

/-- A labelled transition system. -/
structure System (σ ε : Type*) where
  init : σ → Prop
  step : σ → ε → σ → Prop

namespace System

variable {σ ε : Type*} (M : System σ ε)

/-- A path, its labels newest first. -/
inductive Path : σ → List ε → σ → Prop
  | refl (s : σ) : Path s [] s
  | step {s s' s'' : σ} {t : List ε} {e : ε} (h : Path s t s') (hstep : M.step s' e s'') :
      Path s (e :: t) s''

def Reachable (s : σ) : Prop := ∃ s₀ t, M.init s₀ ∧ M.Path s₀ t s

variable {M} {s s' s'' : σ} {t t' : List ε} {e : ε} {next : σ → ε → Option σ}

theorem Reachable.of_init (h : M.init s) : M.Reachable s := ⟨s, [], h, .refl s⟩

theorem Reachable.step (h : M.Reachable s) (hstep : M.step s e s') : M.Reachable s' := by
  obtain ⟨s₀, t, hinit, hpath⟩ := h
  exact ⟨s₀, e :: t, hinit, hpath.step hstep⟩

theorem Path.trans (h : M.Path s t s') (h' : M.Path s' t' s'') : M.Path s (t' ++ t) s'' := by
  induction h' with
  | refl => exact h
  | step _ hstep ih => exact ih.step hstep

/-- What every step keeps, a path keeps. -/
theorem Path.preserves {P : σ → Prop} (hstep : ∀ s e s', P s → M.step s e s' → P s')
    (h : M.Path s t s') (hP : P s) : P s' := by
  induction h with
  | refl => exact hP
  | step _ h ih => exact hstep _ _ _ ih h

/-- **Invariants of paths.** The step may use that its source is reachable. -/
theorem Path.keeps {P : σ → Prop} (hstep : ∀ s e s', M.Reachable s → P s → M.step s e s' → P s')
    (h : M.Path s t s') (hs : M.Reachable s) (hP : P s) : M.Reachable s' ∧ P s' := by
  induction h with
  | refl => exact ⟨hs, hP⟩
  | step _ h ih =>
    obtain ⟨hr, hP'⟩ := ih
    exact ⟨hr.step h, hstep _ _ _ hr hP' h⟩

/-- **Invariants of systems.** -/
theorem invariant {I : σ → Prop} (hinit : ∀ s, M.init s → I s)
    (hstep : ∀ s e s', M.Reachable s → I s → M.step s e s' → I s') (h : M.Reachable s) : I s := by
  obtain ⟨s₀, t, h₀, hpath⟩ := h
  exact (hpath.keeps hstep (.of_init h₀) (hinit s₀ h₀)).2

/-- The system, as long as its states satisfy `Q`. -/
def within (M : System σ ε) (Q : σ → Prop) : System σ ε where
  init s := M.init s ∧ Q s
  step s e s' := M.step s e s' ∧ Q s'

/-- The system, as long as its steps satisfy `C`. -/
def restrict (M : System σ ε) (C : σ → ε → Prop) : System σ ε where
  init := M.init
  step s e s' := M.step s e s' ∧ C s e

theorem Reachable.path (h : M.Reachable s) (hpath : M.Path s t s') : M.Reachable s' :=
  (hpath.keeps (P := fun _ ↦ True) (fun _ _ _ _ _ _ ↦ trivial) h trivial).1

/-! ### Guarded step functions -/

/-- The system of a step function that refuses the labels it has no step for. -/
def guarded (init : σ) (next : σ → ε → Option σ) : System σ ε where
  init s := s = init
  step s e s' := next s e = some s'

/-- Replay labels, oldest first. -/
def replay (next : σ → ε → Option σ) (s : σ) (es : List ε) : Option σ := es.foldlM next s

theorem path_of_replay {init : σ} {es : List ε} (h : replay next s es = some s') :
    ∃ t, (guarded init next).Path s t s' := by
  induction es using reverseRecOn generalizing s' with
  | nil => exact ⟨[], Option.some.inj h ▸ .refl s⟩
  | append_singleton es e ih =>
    rw [replay, foldlM_append] at h
    obtain ⟨s₁, hs₁, hlast⟩ := Option.bind_eq_some_iff.1 h
    obtain ⟨t, ht⟩ := ih hs₁
    exact ⟨e :: t, ht.step (show next s₁ e = some s' by simpa using hlast)⟩

/-- A replay from the initial state ends in a reachable state. -/
theorem reachable_of_replay {init : σ} {es : List ε} (h : replay next init es = some s) :
    (guarded init next).Reachable s := by
  have hpath : ∃ t, (guarded init next).Path init t s := path_of_replay h
  obtain ⟨t, ht⟩ := hpath
  exact ⟨init, t, rfl, ht⟩

/-- A replay that stops at the steps that do not satisfy `C`. -/
theorem reachable_restrict_of_replay {init : σ} {C : σ → ε → Prop} [∀ s e, Decidable (C s e)]
    {es : List ε} (h : replay (fun s e ↦ if C s e then next s e else none) init es = some s) :
    ((guarded init next).restrict C).Reachable s := by
  have hreach := reachable_of_replay h
  refine invariant (I := ((guarded init next).restrict C).Reachable) ?_ ?_ hreach
  · exact fun s hs ↦ .of_init hs
  intro s e s' _ hs hstep
  have hif : (if C s e then next s e else none) = some s' := hstep
  split_ifs at hif with hC
  exact hs.step ⟨hif, hC⟩

end System

/-! ### Pools -/

section Pool

variable {α M : Type*} [AddCommMonoid M] {pool : List α}

/-- The weight of a pool. -/
def tally (w : α → M) (pool : List α) : M := (pool.map w).sum

@[simp] theorem tally_nil (w : α → M) : tally w [] = 0 := rfl

theorem tally_append (w : α → M) (pool : List α) (a : α) :
    tally w (pool ++ [a]) = tally w pool + w a := by
  simp [tally]

/-- One process apart from the others. -/
theorem tally_split (w : α → M) {i : ℕ} {a : α} (h : pool[i]? = some a) :
    ∃ rest, tally w pool = rest + w a ∧ ∀ b, tally w (pool.set i b) = rest + w b := by
  induction pool generalizing i with
  | nil => simp at h
  | cons x pool ih =>
    rcases i with - | i
    · obtain rfl : x = a := by simpa using h
      exact ⟨tally w pool, add_comm _ _, fun b ↦ add_comm _ _⟩
    · obtain ⟨rest, hrest, hset⟩ := ih (i := i) (by simpa using h)
      refine ⟨w x + rest, ?_, fun b ↦ ?_⟩
      · rw [add_assoc, ← hrest]
        rfl
      · rw [add_assoc, ← hset b]
        rfl

/-- **A step of one process** exchanges its weight. -/
theorem tally_set (w : α → M) {i : ℕ} {a : α} (h : pool[i]? = some a) (b : α) :
    tally w (pool.set i b) + w a = tally w pool + w b := by
  obtain ⟨rest, hrest, hset⟩ := tally_split w h
  rw [hrest, hset b, add_right_comm]

theorem tally_congr {w w' : α → M} (h : ∀ a ∈ pool, w a = w' a) :
    tally w pool = tally w' pool := by
  rw [tally, tally, map_congr_left h]

theorem tally_eq_zero {w : α → M} (h : ∀ a ∈ pool, w a = 0) : tally w pool = 0 := by
  rw [tally_congr h, tally]
  simp

theorem map_tally {N : Type*} [AddCommMonoid N] (f : M →+ N) (w : α → M) (pool : List α) :
    f (tally w pool) = tally (fun a ↦ f (w a)) pool := by
  rw [tally, map_list_sum, map_map]
  rfl

theorem tally_add (w w' : α → M) (pool : List α) :
    tally (fun a ↦ w a + w' a) pool = tally w pool + tally w' pool := by
  rw [tally, tally, tally, sum_map_add]

/-- Counting is weighing. -/
theorem tally_toNat (p : α → Bool) (pool : List α) :
    tally (fun a ↦ (p a).toNat) pool = pool.countP p := by
  induction pool with
  | nil => rfl
  | cons a pool ih =>
    simp only [tally, map_cons, sum_cons, countP_cons] at ih ⊢
    rw [ih, Nat.add_comm]
    cases p a <;> rfl

/-- What holds of every process holds after a step that keeps it. -/
theorem forall_set {P : ℕ → α → Prop} {i : ℕ} {b : α} (h : ∀ j a, pool[j]? = some a → j ≠ i → P j a)
    (hb : P i b) :
    ∀ j a, (pool.set i b)[j]? = some a → P j a := by
  intro j a hj
  rw [getElem?_set] at hj
  split at hj
  next heq =>
    split at hj
    · cases hj
      exact heq ▸ hb
    · cases hj
  next hne => exact h j a hj (Ne.symm hne)

/-- After a step of one process, what a process has become. -/
theorem exists_set {R : α → α → Prop} {i j : ℕ} {a a' b : α} (ha : pool[i]? = some a) (hR : R a a')
    (hrefl : R b b) (hb : pool[j]? = some b) :
    ∃ b', (pool.set i a')[j]? = some b' ∧ R b b' := by
  by_cases hij : i = j
  · subst hij
    obtain rfl := Option.some.inj (ha.symm.trans hb)
    exact ⟨a', List.getElem?_set_self (List.getElem?_eq_some_iff.1 ha).1, hR⟩
  · exact ⟨b, (getElem?_set_ne hij).trans hb, hrefl⟩

theorem forall_append {P : ℕ → α → Prop} {b : α} (h : ∀ j a, pool[j]? = some a → P j a)
    (hb : P pool.length b) :
    ∀ j a, (pool ++ [b])[j]? = some a → P j a := by
  intro j a hj
  rw [getElem?_append] at hj
  split at hj
  · exact h j a hj
  next hge =>
    obtain ⟨hlt, rfl⟩ := List.getElem?_eq_some_iff.1 hj
    obtain rfl : j = pool.length := by
      simp only [length_singleton] at hlt
      omega
    simpa using hb

end Pool

end Machine
