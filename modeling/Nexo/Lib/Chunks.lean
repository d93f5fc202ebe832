import Mathlib.Data.List.Basic

/-!
# Chunks of a list

`List.toChunksAux` cuts a list into consecutive chunks of `n + 1` elements, the last of which may be
shorter. Chunks lose nothing and add nothing (`flatten_chunks`), and none is empty or too long
(`length_of_mem_chunks`).
-/

namespace Chunks

open List

variable {α : Type*}

theorem flatten_toChunksAux (n : ℕ) (xs : List α) (i : ℕ) :
    (xs.toChunksAux n i).1 ++ (xs.toChunksAux n i).2.flatten = xs := by
  induction xs generalizing i with
  | nil => rfl
  | cons x xs ih =>
    cases i with
    | zero => simpa [toChunksAux] using ih n
    | succ i => simpa [toChunksAux] using ih i

theorem flatten_chunks (n : ℕ) (xs : List α) : (xs.toChunksAux n 0).2.flatten = xs := by
  have h := flatten_toChunksAux n xs 0
  cases xs with
  | nil => rfl
  | cons x xs => simpa [toChunksAux] using h

/-- The unfinished chunk is filled up, and the finished ones are full or the last. -/
theorem length_toChunksAux (n : ℕ) (xs : List α) (i : ℕ) (hi : i ≤ n) :
    (xs.toChunksAux n i).1.length ≤ i ∧
      ∀ chunk ∈ (xs.toChunksAux n i).2, chunk ≠ [] ∧ chunk.length ≤ n + 1 := by
  induction xs generalizing i with
  | nil => exact ⟨Nat.zero_le _, nofun⟩
  | cons x xs ih =>
    cases i with
    | zero =>
      obtain ⟨hfirst, hrest⟩ := ih n (Nat.le_refl _)
      refine ⟨Nat.le_refl _, forall_mem_cons.2 ⟨⟨cons_ne_nil _ _, ?_⟩, hrest⟩⟩
      rw [length_cons]
      exact Nat.succ_le_succ hfirst
    | succ i =>
      obtain ⟨hfirst, hrest⟩ := ih i (Nat.le_of_succ_le hi)
      refine ⟨?_, hrest⟩
      change (x :: (xs.toChunksAux n i).1).length ≤ i + 1
      rw [length_cons]
      exact Nat.succ_le_succ hfirst

theorem length_of_mem_chunks {n : ℕ} {xs chunk : List α} (h : chunk ∈ (xs.toChunksAux n 0).2) :
    chunk ≠ [] ∧ chunk.length ≤ n + 1 :=
  (length_toChunksAux n xs 0 (Nat.zero_le _)).2 chunk h

end Chunks
