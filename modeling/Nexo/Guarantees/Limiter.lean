import Nexo.Ratelimit.Keyed

/-!
# What holds of the keyed limiter

Its callers cannot tell that it forgets idle keys: for every sequence of calls in order of time, a
call that goes to the limiter of its key is answered as if the key had had one limiter from the
beginning (`sweep_unobservable`). So in any stretch of time it lets through what its rate allows
(`grants_bounded`).
-/

namespace Nexo.Ratelimit

open TokenBucket

/-- The callers: `n` a minute with a burst of `n`. -/
theorem idle_of_perMin {n : Int} (h : 1 ≤ n) : (n : ℚ) ≤ n / 60 * idleTtl := by
  have hone : (1 : ℚ) ≤ n := by exact_mod_cast h
  rw [idleTtl]
  linarith

/-- **Idle sweeping is unobservable.** Where a bucket fills up within `IdleTtl`, for every sequence
of calls and every next call: it goes to the limiter of its key or to the shared one; in the first
case the answer is that of a bucket which was never dropped and had exactly the earlier calls of
that key that went to its limiter; in the second case the key has no entry, as many keys are tracked
as may be, and the answer is that of one bucket which had all the earlier calls that went there.
There are never more keys tracked than that. -/
theorem sweep_unobservable (perSec : ℚ) (burst max : Int) (start : ℚ) (hburst : 1 ≤ burst)
    (hidle : burst ≤ perSec * idleTtl) (calls : List (String × ℚ)) (key : String) (now : ℚ)
    (htimes : (calls ++ [(key, now)]).Pairwise fun c c' ↦ c.2 ≤ c'.2) :
    let r : Rate ℚ := ⟨perSec, burst⟩
    let k₀ := Keyed.new perSec burst max start
    let k := k₀.after calls
    (k.route key now = some key ∨ k.route key now = none) ∧
    (k.route key now = some key →
      (k.allow key now).1 = r.answer (k₀.times (some key) calls) now) ∧
    (k.route key now = none →
      (k.sweepDue now).entries.get key = none ∧ (k.sweepDue now).tracked = max.toNat ∧
      (k.allow key now).1 = r.answer (k₀.times none calls) now) ∧
    k.tracked ≤ max.toNat ∧ (k.allow key now).2.tracked ≤ max.toNat := by
  intro r k₀ k
  obtain ⟨hbefore, -, hlast⟩ := List.pairwise_append.1 htimes
  have htracks : Tracks r max (fun dest ↦ r.run (k₀.times dest calls)) k now :=
    Tracks.after hburst hidle start calls hbefore
      fun c hc ↦ hlast c hc (key, now) (List.mem_singleton.2 rfl)
  have hburst₀ : (0 : ℚ) ≤ burst := Int.cast_nonneg (by omega)
  obtain ⟨hanswer, hnext, hfull⟩ := htracks.allow (pos_of_idle hburst hidle) hburst₀ hidle key
  refine ⟨?_, fun hroute ↦ ?_, fun hroute ↦ ?_, htracks.tracked_le, hnext.tracked_le⟩
  · cases h : ((k.sweepDue now).limiterFor key now).1 with
    | some e => exact .inl (by rw [Keyed.route, h]; rfl)
    | none => exact .inr (by rw [Keyed.route, h]; rfl)
  · rw [hanswer, hroute]
    rfl
  · obtain ⟨hnone, hcount⟩ := hfull hroute
    refine ⟨hnone, hcount, ?_⟩
    rw [hanswer, hroute]
    rfl

/-- One key, one a minute: the second key shares, and after a sweep the first is as good as new. -/
theorem sweep_unobservable_demo :
    let k₀ := Keyed.new (1 / 60) 1 1 0
    let k := k₀.after [("a", 0), ("b", 1)]
    k.route "a" 400 = some "a" ∧ (k.sweepDue 400).tracked = 0 ∧
    (k.allow "a" 400).1 = Rate.answer ⟨(1 / 60 : ℚ), ((1 : Int) : ℚ)⟩ [0] 400 ∧
    k₀.times none [("a", 0), ("b", 1)] = [1] ∧
    (k.allow "a" 400).2.tracked ≤ 1 := by
  intro k₀ k
  have h := sweep_unobservable (1 / 60) 1 1 0 le_rfl (idle_of_perMin le_rfl) [("a", 0), ("b", 1)] "a"
    400 (by simp)
  have hroute : k.route "a" 400 = some "a" := by decide +kernel
  have hown : k₀.times (some "a") [("a", 0), ("b", 1)] = [0] := by decide +kernel
  have hanswer := h.2.1 hroute
  rw [hown] at hanswer
  exact ⟨hroute, by decide +kernel, hanswer, by decide +kernel, h.2.2.2.2⟩

/-- **The limit holds in every window.** Where a bucket fills up within `IdleTtl`, for every
sequence of calls up to `s` and every further one until `t`, in order of time: each limiter, that of
a key or the shared one, lets through no more than a burst and what is refilled in between, also
when its entry is swept and made again. -/
theorem grants_bounded (perSec : ℚ) (burst max : Int) (start s t : ℚ) (hburst : 1 ≤ burst)
    (hidle : burst ≤ perSec * idleTtl) (before calls : List (String × ℚ))
    (hbefore : before.Pairwise fun c c' ↦ c.2 ≤ c'.2) (htimes : calls.Pairwise fun c c' ↦ c.2 ≤ c'.2)
    (hs : ∀ c ∈ before, c.2 ≤ s) (hcalls : ∀ c ∈ calls, s ≤ c.2 ∧ c.2 ≤ t) (hst : s ≤ t)
    (dest : Option String) :
    (((Keyed.new perSec burst max start).after before).granted dest calls : ℚ) ≤
      burst + perSec * (t - s) := by
  have htracks : Tracks ⟨perSec, burst⟩ max _ _ s :=
    Tracks.after hburst hidle start before hbefore hs
  have hle := htracks.granted_le (pos_of_idle hburst hidle) (Int.cast_nonneg (by omega)) hidle dest
    htimes hcalls hst
  refine hle.trans ?_
  rw [mul_comm]
  exact add_le_add_left Rate.level_le _

/-- One key, one a minute: what is let through in a minute is all that may be. -/
theorem grants_bounded_demo :
    let k := (Keyed.new (1 / 60) 1 1 0).after [("a", 0)]
    k.granted (some "a") [("b", 60), ("a", 60), ("a", 90), ("a", 120)] = 2 ∧
    (k.granted (some "a") [("b", 60), ("a", 60), ("a", 90), ("a", 120)] : ℚ) ≤
      (1 : Int) + 1 / 60 * (120 - 60) :=
  ⟨by decide +kernel, grants_bounded (1 / 60) 1 1 0 60 120 le_rfl (idle_of_perMin le_rfl) [("a", 0)] _
    (by simp) (by decide +kernel) (by simp) (by decide +kernel) (by norm_num) _⟩

end Nexo.Ratelimit
