import Mathlib.Data.Nat.Notation
import Mathlib.Order.Defs.LinearOrder
import Mathlib.Order.Lattice
import Mathlib.Order.Nat
import Mathlib.Logic.Function.Basic
import Mathlib.Tactic.Push

/-!
# Binary heaps that know where their elements are

Go's `container/heap`, over a slice whose `Swap`, `Push` and `Pop` keep the position of every
element in the element itself: `index x` is the slot of `x`, and `-1` when `x` is not in the heap.
The elements are compared by a key that may change from outside, after which `fix` restores the
order.

`Heap.Ok` says that the positions are exact and that no slot is below its parent. Each operation is
given by one theorem: it keeps `Ok`, and it changes membership as its name says.
-/

open Function

/-- Slots from `len` on are unused. -/
structure Heap (α : Type*) where
  len : ℕ
  slot : ℕ → α
  index : α → Int

namespace Heap

variable {α κ : Type*} [LinearOrder κ]

section Defs

variable [DecidableEq α]

/-- `heap.Interface.Swap` -/
def swap (h : Heap α) (i j : ℕ) : Heap α :=
  { h with
    slot := Function.update (Function.update h.slot i (h.slot j)) j (h.slot i)
    index := Function.update (Function.update h.index (h.slot j) i) (h.slot i) j }

/-- `heap.Interface.Push` -/
def append (h : Heap α) (x : α) : Heap α where
  len := h.len + 1
  slot := Function.update h.slot h.len x
  index := Function.update h.index x h.len

/-- `heap.Interface.Pop` -/
def dropLast (h : Heap α) : Heap α :=
  { h with len := h.len - 1, index := Function.update h.index (h.slot (h.len - 1)) (-1) }

/-- `heap.up`, whose position falls with every turn of the loop. -/
def up (key : α → κ) : ℕ → ℕ → Heap α → Heap α
  | 0, _, h => h
  | fuel + 1, j, h =>
    let i := (j - 1) / 2
    if i = j ∨ ¬ key (h.slot j) < key (h.slot i) then h else up key fuel i (h.swap i j)

/-- The lesser child of `i`, which has one below `n`. -/
def child (key : α → κ) (h : Heap α) (i n : ℕ) : ℕ :=
  if 2 * i + 2 < n ∧ key (h.slot (2 * i + 2)) < key (h.slot (2 * i + 1)) then 2 * i + 2
  else 2 * i + 1

/-- The loop of `heap.down`, whose position grows with every turn; it ends at the position returned.
-/
def down (key : α → κ) : ℕ → ℕ → ℕ → Heap α → ℕ × Heap α
  | 0, i, _, h => (i, h)
  | fuel + 1, i, n, h =>
    if n ≤ 2 * i + 1 then (i, h)
    else if ¬ key (h.slot (child key h i n)) < key (h.slot i) then (i, h)
    else down key fuel (child key h i n) n (h.swap i (child key h i n))

/-- `down(h, i, n)`, and `up(h, i)` when it did not move. -/
def sift (key : α → κ) (h : Heap α) (i n : ℕ) : Heap α :=
  let r := down key n i n h
  if r.1 > i then r.2 else up key (i + 1) i r.2

/-- `heap.Push` -/
def push (key : α → κ) (h : Heap α) (x : α) : Heap α := up key (h.len + 1) h.len (h.append x)

/-- `heap.Pop` -/
def pop (key : α → κ) (h : Heap α) : Heap α :=
  (down key (h.len - 1) 0 (h.len - 1) (h.swap 0 (h.len - 1))).2.dropLast

/-- `heap.Remove` -/
def remove (key : α → κ) (h : Heap α) (i : ℕ) : Heap α :=
  if h.len - 1 = i then h.dropLast
  else (sift key (h.swap i (h.len - 1)) i (h.len - 1)).dropLast

/-- `heap.Fix` -/
def fix (key : α → κ) (h : Heap α) (i : ℕ) : Heap α := sift key h i h.len

end Defs

/-! ### Positions -/

/-- Is `x` in the heap? -/
def Has (h : Heap α) (x : α) : Prop := 0 ≤ h.index x

instance (h : Heap α) (x : α) : Decidable (h.Has x) := inferInstanceAs (Decidable (0 ≤ h.index x))

/-- **The positions are exact.** -/
structure Indexed (h : Heap α) : Prop where
  slot : ∀ k < h.len, h.index (h.slot k) = k
  index : ∀ x, h.index x = -1 ∨ ∃ k < h.len, h.slot k = x

namespace Indexed

variable {h : Heap α} {i j : ℕ} {x : α}

theorem has_slot (hh : h.Indexed) (hi : i < h.len) : h.Has (h.slot i) := by
  rw [Has, hh.slot i hi]
  exact Int.natCast_nonneg i

theorem exists_slot (hh : h.Indexed) (hx : h.Has x) : ∃ k < h.len, h.slot k = x := by
  rcases hh.index x with hneg | hk
  · rw [Has, hneg] at hx
    exact absurd hx (by decide)
  · exact hk

theorem slot_inj (hh : h.Indexed) (hi : i < h.len) (hj : j < h.len) (heq : h.slot i = h.slot j) :
    i = j := by
  have hi' := hh.slot i hi
  rw [heq, hh.slot j hj] at hi'
  exact (Int.ofNat_inj.1 hi').symm

end Indexed

/-- **`h'` is `h` with the slots below `n` rearranged**, and its positions are exact. -/
structure Shuffled (n : ℕ) (h h' : Heap α) : Prop where
  indexed : h'.Indexed
  len : h'.len = h.len
  has : ∀ x, h'.Has x ↔ h.Has x
  above : ∀ k, n ≤ k → h'.slot k = h.slot k

section Shuffle

variable {h h' h'' : Heap α} {i j n fuel : ℕ} {key : α → κ}

theorem Shuffled.refl (hh : h.Indexed) : Shuffled n h h := ⟨hh, rfl, fun _ ↦ Iff.rfl, fun _ _ ↦ rfl⟩

theorem Shuffled.trans (h₁ : Shuffled n h h') (h₂ : Shuffled n h' h'') : Shuffled n h h'' :=
  ⟨h₂.indexed, h₂.len.trans h₁.len, fun x ↦ (h₂.has x).trans (h₁.has x),
    fun k hk ↦ (h₂.above k hk).trans (h₁.above k hk)⟩

theorem child_bounds (hn : 2 * i + 1 < n) : i < child key h i n ∧ child key h i n < n := by
  unfold child
  split <;> omega

variable [DecidableEq α]

theorem swap_slot_left (h : Heap α) (i j : ℕ) : (h.swap i j).slot i = h.slot j := by
  by_cases hij : i = j
  · subst hij
    simp [swap]
  · simp [swap, hij]

@[simp] theorem swap_slot_right (h : Heap α) (i j : ℕ) : (h.swap i j).slot j = h.slot i := by
  simp [swap]

theorem swap_slot_of_ne {k : ℕ} (hi : k ≠ i) (hj : k ≠ j) : (h.swap i j).slot k = h.slot k := by
  simp [swap, hi, hj]

section

variable (hh : h.Indexed)
include hh

theorem Indexed.swap (hi : i < h.len) (hj : j < h.len) : (h.swap i j).Indexed := by
  have hindex (x : α) : (h.swap i j).index x =
      if x = h.slot i then (j : Int) else if x = h.slot j then (i : Int) else h.index x := by
    simp only [Heap.swap, update_apply]
  refine ⟨fun k hk ↦ ?_, fun x ↦ ?_⟩
  · rw [hindex]
    by_cases hkj : k = j
    · rw [hkj, swap_slot_right, if_pos rfl]
    by_cases hki : k = i
    · rw [hki, swap_slot_left, if_neg fun heq ↦ hkj (hki.trans (hh.slot_inj hi hj heq.symm)),
        if_pos rfl]
    · rw [swap_slot_of_ne hki hkj, if_neg fun heq ↦ hki (hh.slot_inj hk hi heq),
        if_neg fun heq ↦ hkj (hh.slot_inj hk hj heq)]
      exact hh.slot k hk
  · by_cases hxi : x = h.slot i
    · exact .inr ⟨j, hj, by rw [swap_slot_right, hxi]⟩
    by_cases hxj : x = h.slot j
    · exact .inr ⟨i, hi, by rw [swap_slot_left, hxj]⟩
    rw [hindex, if_neg hxi, if_neg hxj]
    refine (hh.index x).imp_right fun ⟨k, hk, hkx⟩ ↦ ⟨k, hk, ?_⟩
    rw [swap_slot_of_ne (fun hki ↦ hxi (by rw [← hkx, hki])) fun hkj ↦ hxj (by rw [← hkx, hkj]), hkx]

theorem Shuffled.swap (hn : n ≤ h.len) (hi : i < n) (hj : j < n) :
    Shuffled n h (h.swap i j) := by
  have hi' := Nat.lt_of_lt_of_le hi hn
  have hj' := Nat.lt_of_lt_of_le hj hn
  refine ⟨hh.swap hi' hj', rfl, fun x ↦ ?_, fun k hk ↦ swap_slot_of_ne (by omega) (by omega)⟩
  simp only [Has, Heap.swap, update_apply]
  split
  next hx =>
    rw [hx, hh.slot i hi']
    omega
  split
  next hx =>
    rw [hx, hh.slot j hj']
    omega
  rfl

theorem shuffled_up (hn : n ≤ h.len) (hj : j < n) :
    Shuffled n h (up key fuel j h) := by
  induction fuel generalizing j h with
  | zero => exact .refl hh
  | succ fuel ih =>
    rw [up]
    split
    · exact .refl hh
    · have hswap : Shuffled n h (h.swap ((j - 1) / 2) j) := .swap hh hn (by omega) hj
      exact hswap.trans (ih hswap.indexed (hswap.len ▸ hn) (by omega))

theorem shuffled_down (hn : n ≤ h.len) (hi : i < n) :
    Shuffled n h (down key fuel i n h).2 := by
  induction fuel generalizing i h with
  | zero => exact .refl hh
  | succ fuel ih =>
    rw [down]
    split
    · exact .refl hh
    split
    · exact .refl hh
    next hchild _ =>
      have hj : child key h i n < n := (child_bounds (by omega)).2
      have hswap : Shuffled n h (h.swap i (child key h i n)) := .swap hh hn hi hj
      exact hswap.trans (ih hswap.indexed (hswap.len ▸ hn) hj)

theorem shuffled_sift (hn : n ≤ h.len) (hi : i < n) :
    Shuffled n h (sift key h i n) := by
  have hdown : Shuffled n h (down key n i n h).2 := shuffled_down hh hn hi
  rw [sift]
  split
  · exact hdown
  · exact hdown.trans (shuffled_up hdown.indexed (hdown.len ▸ hn) hi)

end

end Shuffle

/-! ### Order -/

section Order

variable {key : α → κ} {h : Heap α} {i j n fuel : ℕ}

/-- Slot `k` is not below its parent. -/
def InOrder (key : α → κ) (h : Heap α) (k : ℕ) : Prop := key (h.slot ((k - 1) / 2)) ≤ key (h.slot k)

/-- **The first `n` slots are a heap.** -/
def Ordered (key : α → κ) (h : Heap α) (n : ℕ) : Prop := ∀ k, 0 < k → k < n → InOrder key h k

/-- They are a heap but for slot `i`: what does not touch it is in order, and its children are in
order with its parent. -/
structure Hole (key : α → κ) (h : Heap α) (n i : ℕ) : Prop where
  rest : ∀ k, 0 < k → k < n → k ≠ i → (k - 1) / 2 ≠ i → InOrder key h k
  grand : 0 < i → ∀ k, 0 < k → k < n → (k - 1) / 2 = i →
    key (h.slot ((i - 1) / 2)) ≤ key (h.slot k)

theorem Ordered.hole (hh : Ordered key h n) (i : ℕ) (hi : i < n) : Hole key h n i := by
  refine ⟨fun k hk hkn _ _ ↦ hh k hk hkn, fun hpos k hk hkn hki ↦ ?_⟩
  have hup := hh k hk hkn
  rw [InOrder, hki] at hup
  exact (hh i hpos hi).trans hup

theorem Hole.ordered (hh : Hole key h n i) (hi : 0 < i → InOrder key h i)
    (hchildren : ∀ k, 0 < k → k < n → (k - 1) / 2 = i → InOrder key h k) : Ordered key h n := by
  intro k hk hkn
  by_cases hki : k = i
  · exact hki ▸ hi (hki ▸ hk)
  by_cases hpar : (k - 1) / 2 = i
  · exact hchildren k hk hkn hpar
  · exact hh.rest k hk hkn hki hpar

/-- The lesser child is not above the other. -/
theorem child_le {k : ℕ} (hk : 0 < k) (hkn : k < n) (hki : (k - 1) / 2 = i) :
    key (h.slot (child key h i n)) ≤ key (h.slot k) := by
  obtain rfl | rfl : k = 2 * i + 1 ∨ k = 2 * i + 2 := by omega
  · unfold child
    split
    next hlt => exact hlt.2.le
    next => exact le_rfl
  · unfold child
    split
    next => exact le_rfl
    next hge => exact not_lt.1 fun hlt ↦ hge ⟨hkn, hlt⟩

/-- When the lesser child is not less, the children are in order. -/
theorem inOrder_of_child
    (hstop : 2 * i + 1 < n → ¬ key (h.slot (child key h i n)) < key (h.slot i)) {k : ℕ}
    (hk : 0 < k) (hkn : k < n) (hki : (k - 1) / 2 = i) : InOrder key h k := by
  have hn : 2 * i + 1 < n := by omega
  rw [InOrder, hki]
  exact (not_lt.1 (hstop hn)).trans (child_le hk hkn hki)

variable [DecidableEq α]

/-- One turn of `up`: the hole moves to the parent, above its children. -/
theorem Hole.swap_up (hh : Hole key h n j) (hj : 0 < j) (hjn : j < n)
    (hlt : key (h.slot j) < key (h.slot ((j - 1) / 2))) :
    Hole key (h.swap ((j - 1) / 2) j) n ((j - 1) / 2) ∧
      ∀ k, 0 < k → k < n → (k - 1) / 2 = (j - 1) / 2 → InOrder key (h.swap ((j - 1) / 2) j) k := by
  obtain ⟨i, hi⟩ : ∃ i, i = (j - 1) / 2 := ⟨_, rfl⟩
  rw [← hi] at hlt ⊢
  have hij : i < j := by omega
  -- the other children of the parent are not below it
  have hsibling {k : ℕ} (hk : 0 < k) (hkn : k < n) (hki : (k - 1) / 2 = i) (hkj : k ≠ j) :
      key (h.slot i) ≤ key (h.slot k) := by
    have hrest := hh.rest k hk hkn hkj (by omega)
    rwa [InOrder, hki] at hrest
  refine ⟨⟨fun k hk hkn hki hpar ↦ ?_, fun hpos k hk hkn hki ↦ ?_⟩, fun k hk hkn hki ↦ ?_⟩
  · have hkj : k ≠ j := fun heq ↦ hpar (by rw [heq, hi])
    rw [InOrder, swap_slot_of_ne hki hkj]
    by_cases hparj : (k - 1) / 2 = j
    · rw [hparj, swap_slot_right, hi]
      exact hh.grand hj k hk hkn hparj
    · rw [swap_slot_of_ne hpar hparj]
      exact hh.rest k hk hkn hkj hparj
  · have htop : key (h.slot ((i - 1) / 2)) ≤ key (h.slot i) :=
      hh.rest i hpos (by omega) (by omega) (by omega)
    rw [swap_slot_of_ne (by omega) (by omega)]
    by_cases hkj : k = j
    · rw [hkj, swap_slot_right]
      exact htop
    · rw [swap_slot_of_ne (by omega) hkj]
      exact htop.trans (hsibling hk hkn hki hkj)
  · rw [InOrder, hki, swap_slot_left]
    by_cases hkj : k = j
    · rw [hkj, swap_slot_right]
      exact hlt.le
    · rw [swap_slot_of_ne (by omega) hkj]
      exact hlt.le.trans (hsibling hk hkn hki hkj)

theorem ordered_up (hh : Hole key h n j)
    (hbelow : ∀ k, 0 < k → k < n → (k - 1) / 2 = j → InOrder key h k) (hjn : j < n) (hfuel : j < fuel) :
    Ordered key (up key fuel j h) n := by
  induction fuel generalizing j h with
  | zero => omega
  | succ fuel ih =>
    rw [up]
    split
    next hstop =>
      exact hh.ordered (fun hj ↦ not_lt.1 (hstop.resolve_left (by omega))) hbelow
    next hgo =>
      push Not at hgo
      obtain ⟨hhole, hchildren⟩ := hh.swap_up (by omega) hjn hgo.2
      exact ih hhole hchildren (by omega) (by omega)

/-- One turn of `down`: the hole moves to the lesser child, which is in order afterwards. -/
theorem Hole.swap_down (hh : Hole key h n i) (hn : 2 * i + 1 < n)
    (hlt : key (h.slot (child key h i n)) < key (h.slot i)) :
    Hole key (h.swap i (child key h i n)) n (child key h i n) ∧
      InOrder key (h.swap i (child key h i n)) (child key h i n) := by
  obtain ⟨j, hj⟩ : ∃ j, j = child key h i n := ⟨_, rfl⟩
  have hpar : (j - 1) / 2 = i ∧ 0 < j ∧ i < j ∧ j < n := by
    rw [hj, child]
    split <;> omega
  have hle {k : ℕ} (hk : 0 < k) (hkn : k < n) (hki : (k - 1) / 2 = i) :
      key (h.slot j) ≤ key (h.slot k) := hj ▸ child_le hk hkn hki
  rw [← hj] at hlt ⊢
  obtain ⟨hparj, hj0, hij, hjn⟩ := hpar
  refine ⟨⟨fun k hk hkn hkj hpark ↦ ?_, fun _ k hk hkn hkj ↦ ?_⟩, ?_⟩
  · by_cases hki : k = i
    · -- the child that moved up was in order with the grandparent
      rw [InOrder, hki, swap_slot_left, swap_slot_of_ne (by omega) (by omega)]
      exact hh.grand (hki ▸ hk) j hj0 hjn hparj
    rw [InOrder, swap_slot_of_ne hki hkj]
    by_cases hpari : (k - 1) / 2 = i
    · rw [hpari, swap_slot_left]
      exact hle hk hkn hpari
    · rw [swap_slot_of_ne hpari hpark]
      exact hh.rest k hk hkn hki hpari
  · rw [hparj, swap_slot_left, swap_slot_of_ne (by omega) (by omega)]
    have hrest := hh.rest k hk hkn (by omega) (by omega)
    rwa [InOrder, hkj] at hrest
  · rw [InOrder, hparj, swap_slot_left, swap_slot_right]
    exact hlt.le

theorem ordered_down (hh : Hole key h n i) (hi : 0 < i → InOrder key h i) (hfuel : n ≤ i + fuel) :
    Ordered key (down key fuel i n h).2 n := by
  induction fuel generalizing i h with
  | zero => exact hh.ordered hi fun k hk hkn hki ↦ by omega
  | succ fuel ih =>
    rw [down]
    split
    next hleaf => exact hh.ordered hi fun k hk hkn hki ↦ by omega
    next hleaf =>
      split
      next hstop => exact hh.ordered hi fun k hk hkn ↦ inOrder_of_child (fun _ ↦ hstop) hk hkn
      next hgo =>
        have hn : 2 * i + 1 < n := by omega
        obtain ⟨hhole, hin⟩ := hh.swap_down hn (not_not.1 hgo)
        have hchild : i < child key h i n := (child_bounds hn).1
        exact ih hhole (fun _ ↦ hin) (by omega)

theorem le_down : i ≤ (down key fuel i n h).1 := by
  induction fuel generalizing i h with
  | zero => exact Nat.le_refl i
  | succ fuel ih =>
    rw [down]
    split
    · exact Nat.le_refl i
    split
    · exact Nat.le_refl i
    · exact (child_bounds (by omega)).1.le.trans ih

/-- **`sift` fills the hole.** -/
theorem ordered_sift (hh : Hole key h n i) (hin : i < n) : Ordered key (sift key h i n) n := by
  obtain ⟨fuel, rfl⟩ : ∃ fuel, n = fuel + 1 := ⟨n - 1, by omega⟩
  rw [sift, down]
  split
  next hleaf =>
    rw [if_neg (Nat.lt_irrefl i)]
    exact ordered_up hh (fun k hk hkn hki ↦ by omega) hin (Nat.lt_succ_self i)
  next hleaf =>
    split
    next hstop =>
      rw [if_neg (Nat.lt_irrefl i)]
      exact ordered_up hh (fun k hk hkn ↦ inOrder_of_child (fun _ ↦ hstop) hk hkn) hin
        (Nat.lt_succ_self i)
    next hgo =>
      have hn : 2 * i + 1 < fuel + 1 := by omega
      have hchild : i < child key h i (fuel + 1) := (child_bounds hn).1
      obtain ⟨hhole, hin'⟩ := hh.swap_down hn (not_not.1 hgo)
      rw [if_pos (lt_of_lt_of_le hchild le_down)]
      exact ordered_down hhole (fun _ ↦ hin') (by omega)

end Order

/-! ### The operations -/

/-- **A heap**: exact positions, and in order. -/
structure Ok (key : α → κ) (h : Heap α) : Prop where
  indexed : h.Indexed
  ordered : Ordered key h h.len

section Operations

variable {key key' : α → κ} {h : Heap α} {x y : α}

/-- The heap without elements; `a` fills the unused slots. -/
def empty (a : α) : Heap α := ⟨0, fun _ ↦ a, fun _ ↦ -1⟩

theorem ok_empty (a : α) : Ok key (empty a) :=
  ⟨⟨fun k hk ↦ absurd hk (Nat.not_lt_zero k), fun _ ↦ .inl rfl⟩,
    fun k _ hk ↦ absurd hk (Nat.not_lt_zero k)⟩

theorem not_has_empty (a : α) : ¬ (empty a).Has x := by
  simp [Has, empty]

section

variable (hh : Ok key h)
include hh

theorem Ok.slot_index (hx : h.Has x) :
    (h.index x).toNat < h.len ∧ h.slot (h.index x).toNat = x := by
  obtain ⟨k, hk, rfl⟩ := hh.indexed.exists_slot hx
  rw [hh.indexed.slot k hk, Int.toNat_natCast]
  exact ⟨hk, rfl⟩

/-- Order depends on the keys of the elements only. -/
theorem Ok.congr (heq : ∀ x, h.Has x → key' x = key x) : Ok key' h := by
  refine ⟨hh.indexed, fun k hk hkn ↦ ?_⟩
  rw [InOrder, heq _ (hh.indexed.has_slot hkn), heq _ (hh.indexed.has_slot (by omega))]
  exact hh.ordered k hk hkn

/-- **The head is least.** -/
theorem Ok.head_le (hx : h.Has x) : key (h.slot 0) ≤ key x := by
  obtain ⟨k, hk, rfl⟩ := hh.indexed.exists_slot hx
  induction k using Nat.strong_induction_on with
  | _ k ih =>
    rcases Nat.eq_zero_or_pos k with rfl | hpos
    · exact le_rfl
    · have hpar : (k - 1) / 2 < k := by omega
      have hlen : (k - 1) / 2 < h.len := by omega
      exact (ih _ hpar hlen (hh.indexed.has_slot hlen)).trans (hh.ordered k hpos hk)

theorem Ok.has_head (hlen : 0 < h.len) : h.Has (h.slot 0) := hh.indexed.has_slot hlen

theorem Ok.len_pos (hx : h.Has x) : 0 < h.len :=
  Nat.lt_of_le_of_lt (Nat.zero_le _) (hh.slot_index hx).1

theorem Ok.index_head (hlen : 0 < h.len) : h.index (h.slot 0) = 0 :=
  hh.indexed.slot 0 hlen

end

variable [DecidableEq α]

/-- **`heap.Push`** adds an element. -/
theorem Ok.push (hh : Ok key h) (hx : ¬ h.Has x) :
    Ok key (h.push key x) ∧ (h.push key x).len = h.len + 1 ∧
      ∀ y, (h.push key x).Has y ↔ h.Has y ∨ y = x := by
  have hne {k : ℕ} (hk : k < h.len) : h.slot k ≠ x := fun heq ↦ hx (heq ▸ hh.indexed.has_slot hk)
  have hslot {k : ℕ} (hk : k < h.len) : (h.append x).slot k = h.slot k := by
    simp [append, Nat.ne_of_lt hk]
  have hlast : (h.append x).slot h.len = x := by simp [append]
  have hindexed : (h.append x).Indexed := by
    refine ⟨fun k hk ↦ ?_, fun y ↦ ?_⟩
    · rcases Nat.lt_succ_iff_lt_or_eq.1 hk with hk | rfl
      · rw [hslot hk]
        simp only [append, update_of_ne (hne hk)]
        exact hh.indexed.slot k hk
      · rw [hlast]
        simp [append]
    · by_cases hy : y = x
      · exact .inr ⟨h.len, Nat.lt_succ_self _, by rw [hlast, hy]⟩
      · simp only [append, update_of_ne hy]
        exact (hh.indexed.index y).imp_right fun ⟨k, hk, hky⟩ ↦
          ⟨k, Nat.lt_succ_of_lt hk, by rw [update_of_ne (Nat.ne_of_lt hk), hky]⟩
  have hhole : Hole key (h.append x) (h.len + 1) h.len := by
    refine ⟨fun k hk hkn hklen hpar ↦ ?_, fun _ k hk hkn hpar ↦ by omega⟩
    rw [InOrder, hslot (by omega), hslot (by omega)]
    exact hh.ordered k hk (by omega)
  have hshuffled : Shuffled (h.len + 1) (h.append x) (h.push key x) :=
    shuffled_up hindexed (Nat.le_refl _) (Nat.lt_succ_self _)
  refine ⟨⟨hshuffled.indexed, ?_⟩, hshuffled.len, fun y ↦ ?_⟩
  · rw [hshuffled.len]
    exact ordered_up hhole (fun k hk (hkn : k < h.len + 1) hpar ↦ by omega) (Nat.lt_succ_self _)
      (Nat.lt_succ_self _)
  · rw [hshuffled.has]
    by_cases hy : y = x
    · simp [Has, append, hy]
    · simp [Has, append, hy]

theorem Indexed.dropLast (hh : h.Indexed) (hlen : 0 < h.len) :
    h.dropLast.Indexed ∧ ∀ y, h.dropLast.Has y ↔ h.Has y ∧ y ≠ h.slot (h.len - 1) := by
  have hlast : h.len - 1 < h.len := by omega
  have hindex (y : α) : h.dropLast.index y = if y = h.slot (h.len - 1) then -1 else h.index y := by
    simp only [Heap.dropLast, update_apply]
  refine ⟨⟨fun k hk ↦ ?_, fun y ↦ ?_⟩, fun y ↦ ?_⟩
  · have hk' : k < h.len - 1 := hk
    rw [hindex, if_neg]
    · exact hh.slot k (by omega)
    · exact fun heq ↦ Nat.ne_of_lt hk' (hh.slot_inj (by omega) hlast heq)
  · rw [hindex]
    split
    next => exact .inl rfl
    next hy =>
      refine (hh.index y).imp_right fun ⟨k, hk, hky⟩ ↦ ⟨k, ?_, hky⟩
      have hne : k ≠ h.len - 1 := fun heq ↦ hy (by rw [← hky, heq])
      show k < h.len - 1
      omega
  · rw [Has, hindex]
    split
    next hy => simp [hy]
    next hy => simp [hy, Has]

/-- What is left after the last of the first `n + 1` slots has been dropped. -/
theorem Shuffled.dropLast {h' : Heap α} {n : ℕ} (hs : Shuffled n h h') (hlen : h.len = n + 1)
    (hordered : Ordered key h' n) :
    Ok key h'.dropLast ∧ h'.dropLast.len = n ∧ ∀ y, h'.dropLast.Has y ↔ h.Has y ∧ y ≠ h.slot n := by
  have hlen' : h'.len = n + 1 := hs.len.trans hlen
  obtain ⟨hindexed, hhas⟩ := hs.indexed.dropLast (by omega)
  have hn : h'.dropLast.len = n := by simp [Heap.dropLast, hlen']
  refine ⟨⟨hindexed, by rw [hn]; exact hordered⟩, hn, fun y ↦ ?_⟩
  rw [hhas, hs.has, hlen', Nat.add_sub_cancel, hs.above n (Nat.le_refl n)]

/-- **`heap.Remove`** takes an element out. -/
theorem Ok.remove (hh : Ok key h) (hx : h.Has x) :
    Ok key (h.remove key (h.index x).toNat) ∧ (h.remove key (h.index x).toNat).len = h.len - 1 ∧
      ∀ y, (h.remove key (h.index x).toNat).Has y ↔ h.Has y ∧ y ≠ x := by
  obtain ⟨hi, hslot⟩ := hh.slot_index hx
  obtain ⟨n, hn⟩ : ∃ n, h.len = n + 1 := ⟨h.len - 1, by omega⟩
  generalize (h.index x).toNat = i at *
  rw [Heap.remove, hn, Nat.add_sub_cancel]
  split
  next hlast =>
    subst hlast
    have hs := (Shuffled.refl hh.indexed (n := n)).dropLast hn fun k hk hkn ↦
      hh.ordered k hk (by omega)
    rwa [hslot] at hs
  next hlast =>
    have hswap : Shuffled (n + 1) h (h.swap i n) :=
      .swap hh.indexed (by omega) (by omega) (Nat.lt_succ_self n)
    have hhole : Hole key (h.swap i n) n i := by
      have hold := hh.ordered.hole i hi
      refine ⟨fun k hk hkn hki hpar ↦ ?_, fun hpos k hk hkn hpar ↦ ?_⟩
      · rw [InOrder, swap_slot_of_ne hki (by omega), swap_slot_of_ne hpar (by omega)]
        exact hh.ordered k hk (by omega)
      · rw [swap_slot_of_ne (by omega) (by omega), swap_slot_of_ne (by omega) (by omega)]
        exact hold.grand hpos k hk (by omega) hpar
    have hsift : Shuffled n (h.swap i n) (sift key (h.swap i n) i n) :=
      shuffled_sift hswap.indexed (by rw [hswap.len]; omega) (by omega)
    obtain ⟨hok, hlen, hhas⟩ := hsift.dropLast (hswap.len.trans hn) (ordered_sift hhole (by omega))
    refine ⟨hok, hlen, fun y ↦ ?_⟩
    rw [hhas, hswap.has, swap_slot_right, hslot]

/-- **`heap.Pop`** takes the head out. -/
theorem Ok.pop (hh : Ok key h) (hlen : 0 < h.len) :
    Ok key (h.pop key) ∧ (h.pop key).len = h.len - 1 ∧
      ∀ y, (h.pop key).Has y ↔ h.Has y ∧ y ≠ h.slot 0 := by
  obtain ⟨n, hn⟩ : ∃ n, h.len = n + 1 := ⟨h.len - 1, by omega⟩
  rw [Heap.pop, hn, Nat.add_sub_cancel]
  have hswap : Shuffled (n + 1) h (h.swap 0 n) :=
    .swap hh.indexed (by omega) (by omega) (Nat.lt_succ_self n)
  have hhole : Hole key (h.swap 0 n) n 0 := by
    refine ⟨fun k hk hkn hki hpar ↦ ?_, fun hpos ↦ absurd hpos (Nat.lt_irrefl 0)⟩
    rw [InOrder, swap_slot_of_ne hki (by omega), swap_slot_of_ne hpar (by omega)]
    exact hh.ordered k hk (by omega)
  have hdown : Shuffled n (h.swap 0 n) (down key n 0 n (h.swap 0 n)).2 := by
    rcases Nat.eq_zero_or_pos n with rfl | hpos
    · exact .refl hswap.indexed
    · exact shuffled_down hswap.indexed (by rw [hswap.len]; omega) hpos
  obtain ⟨hok, hlen, hhas⟩ := hdown.dropLast (hswap.len.trans hn)
    (ordered_down hhole (fun hpos ↦ absurd hpos (Nat.lt_irrefl 0)) (by omega))
  refine ⟨hok, hlen, fun y ↦ ?_⟩
  rw [hhas, hswap.has, swap_slot_right]

/-- **`heap.Fix`** restores the order after the key of one element changed. -/
theorem Ok.fix (hh : Ok key h) (hx : h.Has x) (hkey : ∀ y, y ≠ x → key' y = key y) :
    Ok key' (h.fix key' (h.index x).toNat) ∧ (h.fix key' (h.index x).toNat).len = h.len ∧
      ∀ y, (h.fix key' (h.index x).toNat).Has y ↔ h.Has y := by
  obtain ⟨hi, hslot⟩ := hh.slot_index hx
  generalize (h.index x).toNat = i at *
  have hsame {k : ℕ} (hk : k < h.len) (hki : k ≠ i) : key' (h.slot k) = key (h.slot k) :=
    hkey _ fun heq ↦ hki (hh.indexed.slot_inj hk hi (heq.trans hslot.symm))
  have hhole : Hole key' h h.len i := by
    have hold := hh.ordered.hole i hi
    refine ⟨fun k hk hkn hki hpar ↦ ?_, fun hpos k hk hkn hpar ↦ ?_⟩
    · rw [InOrder, hsame (by omega) hpar, hsame hkn hki]
      exact hh.ordered k hk hkn
    · rw [hsame (by omega) (by omega), hsame hkn (by omega)]
      exact hold.grand hpos k hk hkn hpar
  have hsift : Shuffled h.len h (h.fix key' i) := shuffled_sift hh.indexed (Nat.le_refl _) hi
  refine ⟨⟨hsift.indexed, ?_⟩, hsift.len, hsift.has⟩
  rw [hsift.len]
  exact ordered_sift hhole hi

end Operations

end Heap
