import Mathlib.Data.Nat.Log
import Mathlib.Algebra.Order.Ring.Int

/-!
# Integers as double-precision numbers

A double has 53 bits of precision, so that the integers it can hold lie further and further apart:
every one up to `2 ^ 53`, every second one up to `2 ^ 54`, and so on. `nearest` is what a sum or a
difference of integers leaves in a double: the nearest of them, and of two that are equally near the
one whose last bit is zero.

* Up to `2 ^ 53` the result is exact (`nearest_of_le`).
* No result from there on falls below `2 ^ 53` (`le_nearest`).
* `2 ^ 53 + 1` is `2 ^ 53` again: counting stops there.
-/

namespace Binary64

/-- The double next to an integer. -/
def nearest (n : Int) : Int :=
  let unit : Int := 2 ^ (n.natAbs.log2 + 1 - 53)
  let q := n / unit
  let r := n % unit
  unit * (if 2 * r < unit then q else if unit < 2 * r then q + 1 else q + q % 2)

/-- `Number.isSafeInteger` -/
def Safe (n : Int) : Prop := -2 ^ 53 < n ∧ n < 2 ^ 53

/-- **Small integers are exact.** -/
theorem nearest_of_le {n : Int} (hlow : -2 ^ 53 ≤ n) (hhigh : n ≤ 2 ^ 53) : nearest n = n := by
  rcases eq_or_ne n.natAbs (2 ^ 53) with heq | hne
  · rcases Int.natAbs_eq n with hn | hn <;> rw [hn, heq] <;> decide
  · have hlog : n.natAbs.log2 + 1 - 53 = 0 := by
      by_cases hzero : n.natAbs = 0
      · simp [hzero]
      · have := (Nat.log2_lt hzero).2 (show n.natAbs < 2 ^ 53 by omega)
        omega
    simp [nearest, hlog]

/-- Large integers stay large. -/
theorem le_nearest {n : Int} (h : 2 ^ 53 ≤ n) : 2 ^ 53 ≤ nearest n := by
  have hne : n.natAbs ≠ 0 := by omega
  have hlog : 53 ≤ n.natAbs.log2 := (Nat.le_log2 hne).2 (by omega)
  have hunit : (0 : Int) < 2 ^ (n.natAbs.log2 + 1 - 53) := pow_pos (by decide) _
  have hpow : (2 : Int) ^ (n.natAbs.log2 + 1 - 53) * 2 ^ 52 = 2 ^ n.natAbs.log2 := by
    rw [← pow_add]
    congr 1
    omega
  have hself : (2 : Int) ^ n.natAbs.log2 ≤ n := by
    have hle := Nat.log2_self_le hne
    have hcast : ((2 ^ n.natAbs.log2 : ℕ) : Int) ≤ n := by omega
    simpa using hcast
  -- the quotient has 53 bits
  have hq : 2 ^ 52 ≤ n / 2 ^ (n.natAbs.log2 + 1 - 53) := by
    rw [Int.le_ediv_iff_mul_le hunit, mul_comm, hpow]
    exact hself
  calc (2 : Int) ^ 53 ≤ 2 ^ n.natAbs.log2 := pow_le_pow_right₀ (by decide) hlog
    _ = 2 ^ (n.natAbs.log2 + 1 - 53) * 2 ^ 52 := hpow.symm
    _ ≤ nearest n := by
      refine mul_le_mul_of_nonneg_left ?_ hunit.le
      split_ifs <;> omega

end Binary64
