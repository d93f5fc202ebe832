import Mathlib.Algebra.Order.Field.Basic
import Mathlib.Tactic.Linarith
import Mathlib.Tactic.Ring

/-!
# Token buckets

A bucket of `burst` tokens that refills at a constant rate, with exact arithmetic over an ordered
field. It keeps the tokens it had and the moment of its last successful request; what it holds at a
later moment is its `level`.

Two buckets can differ in what they keep and still answer alike forever: it is enough that their
levels agree at one moment (`Alike`). A bucket that has been left alone for long enough is like a
new one (`alike_fresh`), which is what allows one to be thrown away and made again.
-/

namespace TokenBucket

variable {K : Type} [Field K] [LinearOrder K]

/-- How fast buckets refill, and how much they hold. -/
structure Rate (K : Type) where
  limit : K
  burst : K

/-- What a bucket keeps. -/
structure Bucket (K : Type) where
  tokens : K
  last : K
  deriving DecidableEq

namespace Rate

variable (r : Rate K)

/-- A new bucket is full. The moment it keeps is the zero one. -/
def fresh : Bucket K where
  tokens := r.burst
  last := 0

/-- What a bucket holds at a moment; time does not run backwards in it. -/
def level (b : Bucket K) (t : K) : K := min r.burst (b.tokens + (t - min t b.last) * r.limit)

/-- A request for one token; a request that is refused leaves the bucket as it is. -/
def allow (b : Bucket K) (t : K) : Bool × Bucket K :=
  if 1 ≤ r.burst ∧ 1 ≤ r.level b t then (true, ⟨r.level b t - 1, t⟩) else (false, b)

/-- The bucket after requests at the given moments, in order. -/
def run (ts : List K) : Bucket K := ts.foldl (fun b t ↦ (r.allow b t).2) r.fresh

/-- What a bucket of its own answers to a request at `t`, after requests at `ts`. -/
def answer (ts : List K) (t : K) : Bool := (r.allow (r.run ts) t).1

@[simp] theorem run_append (ts : List K) (t : K) : r.run (ts ++ [t]) = (r.allow (r.run ts) t).2 := by
  simp [run]

/-- From `t` on, the level of the bucket only depends on its level at `t`. -/
structure Settled (b : Bucket K) (t : K) : Prop where
  nonneg : 0 ≤ b.tokens
  past : b.last ≤ t ∨ r.burst ≤ b.tokens

/-- **The buckets answer alike from `t` on.** -/
structure Alike (b b' : Bucket K) (t : K) : Prop where
  left : r.Settled b t
  right : r.Settled b' t
  level : r.level b t = r.level b' t

variable {r} {b b' : Bucket K} {s t : K}

theorem level_le : r.level b t ≤ r.burst := min_le_left _ _

theorem level_of_last_le (h : b.last ≤ t) :
    r.level b t = min r.burst (b.tokens + (t - b.last) * r.limit) := by
  rw [level, min_eq_right h]

theorem Settled.later (h : r.Settled b s) (hst : s ≤ t) : r.Settled b t :=
  ⟨h.nonneg, h.past.imp_left fun hlast ↦ hlast.trans hst⟩

theorem settled_fresh (hburst : 0 ≤ r.burst) : r.Settled r.fresh t := ⟨hburst, .inr le_rfl⟩

theorem Alike.refl (h : r.Settled b t) : r.Alike b b t := ⟨h, h, rfl⟩

theorem Alike.answer (h : r.Alike b b' t) : (r.allow b t).1 = (r.allow b' t).1 := by
  unfold allow
  rw [h.level]
  split <;> rfl

/-! ### Levels -/

variable [IsStrictOrderedRing K]

section

variable (hr : 0 ≤ r.limit)
include hr

theorem level_of_full (h : r.burst ≤ b.tokens) : r.level b t = r.burst := by
  have hpast : 0 ≤ t - min t b.last := sub_nonneg.2 (min_le_left _ _)
  have hrefill : 0 ≤ (t - min t b.last) * r.limit := mul_nonneg hpast hr
  exact min_eq_left (by linarith)

theorem level_nonneg (hburst : 0 ≤ r.burst) (h : r.Settled b t) :
    0 ≤ r.level b t :=
  le_min hburst (add_nonneg h.nonneg (mul_nonneg (sub_nonneg.2 (min_le_left _ _)) hr))

/-- Refilling in two steps is refilling in one. -/
theorem level_later (h : r.Settled b s) (hst : s ≤ t) :
    r.level b t = min r.burst (r.level b s + (t - s) * r.limit) := by
  have hrefill : 0 ≤ (t - s) * r.limit := mul_nonneg (sub_nonneg.2 hst) hr
  rcases h.past with hlast | hfull
  · have hsum : b.tokens + (t - b.last) * r.limit =
        b.tokens + (s - b.last) * r.limit + (t - s) * r.limit := by ring
    have hover : r.burst ≤ r.burst + (t - s) * r.limit := by linarith
    rw [level_of_last_le (hlast.trans hst), level_of_last_le hlast, hsum, ← min_add_add_right,
      ← min_assoc, min_eq_left hover]
  · rw [level_of_full hr hfull, level_of_full hr hfull]
    exact (min_eq_left (by linarith)).symm

/-- **A bucket that was left alone long enough is full.** -/
theorem level_of_idle (h : r.Settled b s) (hst : s ≤ t)
    (hidle : r.burst ≤ (t - s) * r.limit) : r.level b t = r.burst := by
  rcases h.past with hlast | hfull
  · have hmore : (t - s) * r.limit ≤ (t - b.last) * r.limit :=
      mul_le_mul_of_nonneg_right (by linarith) hr
    have hnonneg := h.nonneg
    rw [level_of_last_le (hlast.trans hst)]
    exact min_eq_left (by linarith)
  · exact level_of_full hr hfull

end

/-! ### Requests -/

theorem settled_allow (h : r.Settled b t) : r.Settled (r.allow b t).2 t := by
  unfold allow
  split
  · next hyes => exact ⟨sub_nonneg.2 hyes.2, .inl le_rfl⟩
  · exact h

/-- A request takes a token off the level if it is granted. -/
theorem level_allow :
    r.level (r.allow b t).2 t = r.level b t - if (r.allow b t).1 then 1 else 0 := by
  unfold allow
  split
  · have hle : r.level b t ≤ r.burst := level_le
    rw [level_of_last_le le_rfl, sub_self, zero_mul, add_zero, if_pos rfl]
    exact min_eq_right (by linarith)
  · simp

theorem Alike.later (hr : 0 ≤ r.limit) (h : r.Alike b b' s) (hst : s ≤ t) : r.Alike b b' t where
  left := h.left.later hst
  right := h.right.later hst
  level := by rw [level_later hr h.left hst, level_later hr h.right hst, h.level]

theorem Alike.allow (h : r.Alike b b' t) : r.Alike (r.allow b t).2 (r.allow b' t).2 t where
  left := settled_allow h.left
  right := settled_allow h.right
  level := by rw [level_allow, level_allow, h.level, h.answer]

/-- A full bucket is like a new one. -/
theorem alike_fresh (hr : 0 ≤ r.limit) (hburst : 0 ≤ r.burst) (h : r.Settled b t)
    (hfull : r.level b t = r.burst) : r.Alike r.fresh b t where
  left := settled_fresh hburst
  right := h
  level := by rw [hfull, level_of_full hr le_rfl]

/-! ### Reservations -/

variable (r) in
/-- Reserve one token, and how long to wait for it. The bucket may go into debt. -/
def reserve (b : Bucket K) (t : K) : Bucket K × K :=
  (⟨r.level b t - 1, t⟩, max 0 ((1 - r.level b t) / r.limit))

variable (r) in
/-- Give back the last reservation. -/
def cancel (b : Bucket K) (t : K) : Bucket K := ⟨min r.burst (r.level b t + 1), t⟩

/-- **A reservation that is given back at once** leaves the level as it was. -/
theorem cancel_reserve (b : Bucket K) (t : K) : r.cancel (r.reserve b t).1 t = ⟨r.level b t, t⟩ := by
  have hle : r.level b t ≤ r.burst := level_le
  have hdebt : r.level ⟨r.level b t - 1, t⟩ t = r.level b t - 1 := by
    rw [level_of_last_le le_rfl, sub_self, zero_mul, add_zero]
    exact min_eq_right (by linarith)
  rw [reserve, cancel, hdebt, sub_add_cancel, min_eq_right hle]

/-- **How long a token takes.** A bucket that a reservation has to wait for has no token before the
time that the reservation gives, also when that reservation is given back. -/
theorem add_delay_le (hr : 0 < r.limit) (hwait : 0 < (r.reserve b s).2)
    (ht : 1 ≤ r.level (r.cancel (r.reserve b s).1 s) t) : s + (r.reserve b s).2 ≤ t := by
  rw [cancel_reserve] at ht
  have hdelay : (r.reserve b s).2 = (1 - r.level b s) / r.limit :=
    max_eq_right (le_of_lt ((lt_max_iff.1 hwait).resolve_left (lt_irrefl 0)))
  have hempty : r.level b s < 1 := by
    rw [hdelay, div_pos_iff_of_pos_right hr] at hwait
    linarith
  have hrefill : 1 ≤ r.level b s + (t - min t s) * r.limit := ht.trans (min_le_right _ _)
  rw [hdelay]
  rcases le_total t s with hts | hst
  · rw [min_eq_left hts, sub_self, zero_mul] at hrefill
    linarith
  · rw [min_eq_right hst] at hrefill
    have hle : (1 - r.level b s) / r.limit ≤ t - s := (div_le_iff₀ hr).2 (by linarith)
    linarith

end Rate

end TokenBucket
