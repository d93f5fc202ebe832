import Nexo.Lib.Table
import Nexo.Lib.TokenBucket
import Mathlib.Algebra.Order.Field.Rat
import Mathlib.Data.List.Induction
import Mathlib.Tactic.NormNum

/-!
# The keyed limiter

`ratelimit.Keyed` keeps one limiter of `x/time/rate` per key, drops the ones nobody has used for
`IdleTtl`, and lets the keys it has no room for share one. The limiter of `x/time/rate` is an exact
token bucket over the rationals, and times are rational seconds.

`Tracks` relates a limiter that sweeps to buckets that are never dropped: an entry is like the
bucket of its key, and the bucket of a key without an entry is full. A call keeps the relation
(`Tracks.allow`) because an entry that is swept has had the time to fill up.
-/

namespace Nexo.Ratelimit

open Relational TokenBucket List Function

/-! ### The code -/

/-- `IdleTtl`, in seconds -/
def idleTtl : ℚ := 5 * 60

/-- `entry`, with the key it is under -/
structure Entry where
  key : String
  lim : Bucket ℚ
  seen : ℚ

def Entry.keys (e : Entry) : List String := [e.key]

/-- `Keyed` -/
structure Keyed where
  rate : ℚ
  burst : Int
  max : Int
  entries : Table Entry String Entry.keys
  overflow : Bucket ℚ
  swept : ℚ

namespace Keyed

/-- The rate of the limiters it makes. -/
def limits (k : Keyed) : Rate ℚ where
  limit := k.rate
  burst := k.burst

/-- `NewKeyed`; `now` is `time.Now()`. -/
def new (perSec : ℚ) (burst max : Int) (now : ℚ) : Keyed where
  rate := perSec
  burst := burst
  max := max
  entries := .empty
  overflow := Rate.fresh ⟨perSec, burst⟩
  swept := now

/-- `len(k.entries)` -/
def tracked (k : Keyed) : ℕ := k.entries.count fun _ ↦ true

/-- `Keyed.sweep` -/
def sweep (k : Keyed) (now : ℚ) : Keyed :=
  { k with entries := k.entries.delete fun e ↦ now - e.seen > idleTtl, swept := now }

/-- The sweep a call begins with, when it is due. -/
def sweepDue (k : Keyed) (now : ℚ) : Keyed := if now - k.swept > idleTtl then k.sweep now else k

/-- `Keyed.limiterFor`: the entry that has the limiter, or `none` for the shared one. -/
def limiterFor (k : Keyed) (key : String) (now : ℚ) : Option Entry × Keyed :=
  match k.entries.get key with
  | some e =>
    let e := { e with seen := now }
    (some e, { k with entries :=
      k.entries.update (fun e ↦ e.key = key) (fun e ↦ { e with seen := now }) fun _ ↦ rfl })
  | none =>
    if (k.tracked : Int) ≥ k.max then (none, k)
    else
      let e := { key, lim := k.limits.fresh, seen := now }
      (some e, { k with entries := k.entries.insert e })

/-- The limiter of a key, changed in place. -/
def setLimiter (k : Keyed) (key : String) (lim : Bucket ℚ) : Keyed :=
  { k with entries := k.entries.update (fun e ↦ e.key = key) (fun e ↦ { e with lim }) fun _ ↦ rfl }

/-- `Keyed.Allow` -/
def allow (k : Keyed) (key : String) (now : ℚ) : Bool × Keyed :=
  if k.rate ≤ 0 then (true, k)
  else
    match (k.sweepDue now).limiterFor key now with
    | (some e, k) =>
      let (ok, lim) := k.limits.allow e.lim now
      (ok, k.setLimiter key lim)
    | (none, k) =>
      let (ok, lim) := k.limits.allow k.overflow now
      (ok, { k with overflow := lim })

/-- Which limiter a call goes to: the one of its key, or `none` for the shared one. -/
def route (k : Keyed) (key : String) (now : ℚ) : Option String :=
  ((k.sweepDue now).limiterFor key now).1.map fun _ ↦ key

/-! ### Sequences of calls -/

/-- The limiter after calls, in order. -/
def after (k : Keyed) (calls : List (String × ℚ)) : Keyed :=
  calls.foldl (fun k c ↦ (k.allow c.1 c.2).2) k

/-- Where each of the calls goes, and when. -/
def routed (k : Keyed) : List (String × ℚ) → List (Option String × ℚ)
  | [] => []
  | (key, now) :: calls => (k.route key now, now) :: routed (k.allow key now).2 calls

/-- The times of the calls that go to one limiter. -/
def times (k : Keyed) (dest : Option String) (calls : List (String × ℚ)) : List ℚ :=
  ((k.routed calls).filter fun c ↦ c.1 = dest).map Prod.snd

/-- How many of the calls one limiter lets through. -/
def granted (k : Keyed) (dest : Option String) : List (String × ℚ) → ℕ
  | [] => 0
  | (key, now) :: calls =>
    (if k.route key now = dest ∧ (k.allow key now).1 then 1 else 0) +
      granted (k.allow key now).2 dest calls

theorem after_append (k : Keyed) (calls : List (String × ℚ)) (key : String) (now : ℚ) :
    k.after (calls ++ [(key, now)]) = ((k.after calls).allow key now).2 := by
  simp [after]

theorem routed_append (k : Keyed) (calls : List (String × ℚ)) (key : String) (now : ℚ) :
    k.routed (calls ++ [(key, now)]) = k.routed calls ++ [((k.after calls).route key now, now)] := by
  induction calls generalizing k with
  | nil => rfl
  | cons c calls ih =>
    obtain ⟨key', now'⟩ := c
    rw [cons_append, routed, ih, routed]
    rfl

theorem times_append (k : Keyed) (dest : Option String) (calls : List (String × ℚ)) (key : String)
    (now : ℚ) : k.times dest (calls ++ [(key, now)]) =
      k.times dest calls ++ if (k.after calls).route key now = dest then [now] else [] := by
  rw [times, routed_append, filter_append, map_append, ← times]
  split
  · next h => simp [h]
  · next h => simp [h]

end Keyed

/-! ### Sweeping is not noticed -/

section Entries

variable {t : Table Entry String Entry.keys} {f : Entry → Entry}

theorem key_of_get {key : String} {e : Entry} (h : t.get key = some e) : e.key = key := by
  have hmem := Table.mem_keys_of_get h
  exact (mem_singleton.1 hmem).symm

theorem get_insert_key (e : Entry) (key : String) :
    (t.insert e).get key = if key = e.key then some ((t.get e.key).getD e) else t.get key :=
  Table.get_insert_single (r := e) rfl key

/-- A change of the entry of one key. -/
theorem get_update_key (hf : ∀ e, (f e).keys = e.keys) (key key' : String) :
    (t.update (fun e ↦ e.key = key) f hf).get key' =
      if key' = key then (t.get key').map f else t.get key' := by
  rw [Table.get_update]
  rcases h : t.get key' with - | e
  · simp
  · rw [← key_of_get h]
    split <;> simp_all

end Entries

/-- A limiter whose idle buckets fill up refills. -/
theorem pos_of_idle {perSec : ℚ} {burst : Int} (hburst : 1 ≤ burst)
    (hidle : burst ≤ perSec * idleTtl) : 0 < perSec := by
  have hone : (1 : ℚ) ≤ burst := by exact_mod_cast hburst
  have hprod : 0 < perSec * idleTtl := by linarith
  exact pos_of_mul_pos_left hprod (by norm_num [idleTtl])

/-- **A limiter that sweeps against buckets that stay**, at a moment: `ideal` has one for every key
and, under `none`, the shared one. -/
structure Tracks (r : Rate ℚ) (max : Int) (ideal : Option String → Bucket ℚ) (k : Keyed) (t : ℚ) :
    Prop where
  limits : k.limits = r
  max_eq : k.max = max
  tracked_le : k.tracked ≤ max.toNat
  shared : r.Alike k.overflow (ideal none) t
  /-- The limiter of an entry does what the bucket of its key does. -/
  entry : ∀ key e, k.entries.get key = some e →
    e.seen ≤ t ∧ r.Settled e.lim e.seen ∧ r.Alike e.lim (ideal (some key)) t
  /-- The bucket of a key without an entry is full. -/
  gone : ∀ key, k.entries.get key = none → r.Alike r.fresh (ideal (some key)) t

namespace Tracks

variable {r : Rate ℚ} {max : Int} {ideal : Option String → Bucket ℚ} {k : Keyed} {s t : ℚ}

theorem new {perSec : ℚ} {burst : Int} (hburst : 0 ≤ burst) (now : ℚ) :
    Tracks ⟨perSec, burst⟩ max (fun _ ↦ Rate.fresh ⟨perSec, burst⟩)
      (Keyed.new perSec burst max now) t where
  limits := rfl
  max_eq := rfl
  tracked_le := Nat.zero_le _
  shared := .refl (Rate.settled_fresh (Int.cast_nonneg hburst))
  entry _ _ h := by cases h
  gone _ _ := .refl (Rate.settled_fresh (Int.cast_nonneg hburst))

theorem later (hr : 0 ≤ r.limit) (h : Tracks r max ideal k s) (hst : s ≤ t) :
    Tracks r max ideal k t where
  limits := h.limits
  max_eq := h.max_eq
  tracked_le := h.tracked_le
  shared := h.shared.later hr hst
  entry key e he :=
    have ⟨hseen, hsettled, halike⟩ := h.entry key e he
    ⟨hseen.trans hst, hsettled, halike.later hr hst⟩
  gone key hkey := (h.gone key hkey).later hr hst

/-- **A sweep is not noticed**: what it drops has been idle for long enough to be full. -/
theorem sweep (hr : 0 ≤ r.limit) (hburst : 0 ≤ r.burst) (hidle : r.burst ≤ r.limit * idleTtl)
    (h : Tracks r max ideal k t) : Tracks r max ideal (k.sweep t) t where
  limits := h.limits
  max_eq := h.max_eq
  tracked_le := (Table.count_delete_le).trans h.tracked_le
  shared := h.shared
  entry key e he := by
    rw [Keyed.sweep, Table.get_delete] at he
    exact h.entry key e (Option.filter_eq_some_iff.1 he).1
  gone key hkey := by
    rw [Keyed.sweep, Table.get_delete] at hkey
    rcases hget : k.entries.get key with - | e
    · exact h.gone key hget
    obtain ⟨hseen, hsettled, halike⟩ := h.entry key e hget
    have hold : idleTtl < t - e.seen := by simpa [hget, lt_sub_iff_add_lt] using hkey
    have hfull : r.level e.lim t = r.burst := by
      refine Rate.level_of_idle hr hsettled hseen (hidle.trans ?_)
      rw [mul_comm]
      exact mul_le_mul_of_nonneg_right hold.le hr
    exact Rate.alike_fresh hr hburst halike.right (halike.level ▸ hfull)

theorem sweepDue (hr : 0 ≤ r.limit) (hburst : 0 ≤ r.burst) (hidle : r.burst ≤ r.limit * idleTtl)
    (h : Tracks r max ideal k t) : Tracks r max ideal (k.sweepDue t) t := by
  unfold Keyed.sweepDue
  split
  · exact h.sweep hr hburst hidle
  · exact h

/-- A change of the entry of one key, along with its bucket. -/
theorem update {key : String} {e : Entry} {b : Bucket ℚ} {f : Entry → Entry}
    (h : Tracks r max ideal k t) (hf : ∀ e, (f e).keys = e.keys) (he : k.entries.get key = some e)
    (hseen : (f e).seen ≤ t) (hsettled : r.Settled (f e).lim (f e).seen)
    (halike : r.Alike (f e).lim b t) :
    Tracks r max (update ideal (some key) b)
      { k with entries := k.entries.update (fun e ↦ e.key = key) f hf } t where
  limits := h.limits
  max_eq := h.max_eq
  tracked_le := by
    rw [Keyed.tracked, Table.count_update hf fun _ ↦ rfl]
    exact h.tracked_le
  shared := h.shared
  entry key' e' he' := by
    rw [get_update_key] at he'
    by_cases hkey : key' = key
    · rw [hkey, if_pos rfl, he] at he'
      cases he'
      rw [hkey, update_self]
      exact ⟨hseen, hsettled, halike⟩
    · rw [if_neg hkey] at he'
      rw [update_of_ne (by simpa using hkey)]
      exact h.entry key' e' he'
  gone key' he' := by
    rw [get_update_key] at he'
    by_cases hkey : key' = key
    · rw [hkey, if_pos rfl, he] at he'
      cases he'
    · rw [if_neg hkey] at he'
      rw [update_of_ne (by simpa using hkey)]
      exact h.gone key' he'

/-- A new entry for a key that has none. -/
theorem insert {e : Entry} (hburst : 0 ≤ r.burst) (h : Tracks r max ideal k t)
    (hlim : e.lim = r.fresh) (hseen : e.seen = t) (hget : k.entries.get e.key = none)
    (hroom : (k.tracked : Int) < k.max) :
    Tracks r max ideal { k with entries := k.entries.insert e } t where
  limits := h.limits
  max_eq := h.max_eq
  tracked_le := by
    have hfree : k.entries.Free e := by simp [Table.Free, Entry.keys, hget]
    rw [Keyed.tracked, Table.count_insert_of_free hfree, ← Keyed.tracked]
    rw [h.max_eq] at hroom
    simp only [if_true]
    omega
  shared := h.shared
  entry key' e' he' := by
    rw [get_insert_key, hget] at he'
    split at he'
    · next hkey =>
      obtain rfl : e = e' := Option.some.inj he'
      rw [hkey, hlim, hseen]
      exact ⟨le_rfl, Rate.settled_fresh hburst, h.gone e.key hget⟩
    · exact h.entry key' e' he'
  gone key' he' := by
    rw [get_insert_key] at he'
    split at he'
    · cases he'
    · exact h.gone key' he'

/-- The two outcomes of `limiterFor`. -/
theorem limiterFor (hburst : 0 ≤ r.burst) (h : Tracks r max ideal k t) (key : String) :
    (∃ e k', k.limiterFor key t = (some e, k') ∧ (Tracks r max ideal k' t ∧ e.seen = t) ∧
      k'.entries.get key = some e) ∨
    (k.limiterFor key t = (none, k) ∧ k.entries.get key = none ∧ k.tracked = max.toNat) := by
  unfold Keyed.limiterFor
  rcases hget : k.entries.get key with - | e
  · by_cases hroom : (k.tracked : Int) ≥ k.max
    · refine .inr ⟨by rw [if_pos hroom], rfl, ?_⟩
      have hle := h.tracked_le
      rw [h.max_eq] at hroom
      omega
    · refine .inl ⟨_, _, by rw [if_neg hroom], ?_, ?_⟩
      · exact ⟨h.insert hburst (by rw [h.limits]) rfl hget (not_le.1 hroom), rfl⟩
      · refine (get_insert_key _ key).trans ?_
        rw [hget, if_pos rfl]
        rfl
  · obtain ⟨hseen, hsettled, halike⟩ := h.entry key e hget
    refine .inl ⟨_, _, rfl, ?_, ?_⟩
    · have hnew := h.update (f := fun e ↦ { e with seen := t }) (fun _ ↦ rfl) hget le_rfl
        (hsettled.later hseen) halike
      rw [update_eq_self] at hnew
      exact ⟨hnew, rfl⟩
    · refine (get_update_key (f := fun e ↦ { e with seen := t }) (fun _ ↦ rfl) key key).trans ?_
      rw [hget, if_pos rfl]
      rfl

/-- **A call** is answered by the bucket it goes to, and keeps the relation. -/
theorem allow (hr : 0 < r.limit) (hburst : 0 ≤ r.burst) (hidle : r.burst ≤ r.limit * idleTtl)
    (h : Tracks r max ideal k t) (key : String) :
    (k.allow key t).1 = (r.allow (ideal (k.route key t)) t).1 ∧
    Tracks r max (Function.update ideal (k.route key t) (r.allow (ideal (k.route key t)) t).2)
      (k.allow key t).2 t ∧
    (k.route key t = none →
      (k.sweepDue t).entries.get key = none ∧ (k.sweepDue t).tracked = max.toNat) := by
  have hrate : ¬ k.rate ≤ 0 := by
    have hlimit := congrArg Rate.limit h.limits
    rw [← hlimit] at hr
    exact not_le.2 hr
  have hswept := h.sweepDue hr.le hburst hidle
  rcases hswept.limiterFor hburst key with ⟨e, k', hfor, ⟨hk', hseen⟩, hget⟩ | ⟨hfor, hnone, hfull⟩
  · have hroute : k.route key t = some key := by rw [Keyed.route, hfor]; rfl
    have hallow : k.allow key t =
        ((r.allow e.lim t).1, k'.setLimiter key (r.allow e.lim t).2) := by
      rw [Keyed.allow, if_neg hrate, hfor, ← hk'.limits]
    obtain ⟨-, -, halike⟩ := hk'.entry key e hget
    rw [hroute, hallow]
    refine ⟨halike.answer, hk'.update (f := fun e' ↦ { e' with lim := (r.allow e.lim t).2 })
      (fun _ ↦ rfl) hget hseen.le ?_ halike.allow, nofun⟩
    rw [hseen]
    exact Rate.settled_allow halike.left
  · have hroute : k.route key t = none := by rw [Keyed.route, hfor]; rfl
    have hallow : k.allow key t = ((r.allow (k.sweepDue t).overflow t).1,
        { k.sweepDue t with overflow := (r.allow (k.sweepDue t).overflow t).2 }) := by
      rw [Keyed.allow, if_neg hrate, hfor, ← hswept.limits]
    rw [hroute, hallow]
    refine ⟨hswept.shared.answer, { hswept with shared := ?_, entry := ?_, gone := ?_ },
      fun _ ↦ ⟨hnone, hfull⟩⟩
    · rw [update_self]
      exact hswept.shared.allow
    · intro key' e he
      rw [update_of_ne (Option.some_ne_none key')]
      exact hswept.entry key' e he
    · intro key' he
      rw [update_of_ne (Option.some_ne_none key')]
      exact hswept.gone key' he

/-- **Any calls in order of time.** -/
theorem after {perSec : ℚ} {burst : Int} (hburst : 1 ≤ burst) (hidle : burst ≤ perSec * idleTtl)
    (start : ℚ) (calls : List (String × ℚ)) (htimes : calls.Pairwise fun c c' ↦ c.2 ≤ c'.2)
    (hnow : ∀ c ∈ calls, c.2 ≤ t) :
    Tracks ⟨perSec, burst⟩ max
      (fun dest ↦ Rate.run ⟨perSec, burst⟩ ((Keyed.new perSec burst max start).times dest calls))
      ((Keyed.new perSec burst max start).after calls) t := by
  have hburst₀ : (0 : ℚ) ≤ burst := Int.cast_nonneg (by omega)
  have hpos : 0 < perSec := pos_of_idle hburst hidle
  -- from the left the bound of the times would have to move along; from the right it is the last time
  induction calls using reverseRecOn generalizing t with
  | nil => exact new (by omega) start
  | append_singleton calls c ih =>
    obtain ⟨key, now⟩ := c
    obtain ⟨hbefore, -, hlast⟩ := pairwise_append.1 htimes
    have hcalls := ih hbefore fun c hc ↦ hlast c hc (key, now) (mem_singleton.2 rfl)
    obtain ⟨-, hnext, -⟩ := hcalls.allow hpos hburst₀ hidle key
    rw [Keyed.after_append]
    refine Tracks.later hpos.le ?_ (hnow (key, now) (by simp))
    convert hnext using 1
    funext dest
    rw [Keyed.times_append]
    by_cases hdest : ((Keyed.new perSec burst max start).after calls).route key now = dest
    · rw [if_pos hdest, Rate.run_append, hdest, update_self]
    · rw [if_neg hdest, append_nil, update_of_ne (Ne.symm hdest)]

theorem settled (h : Tracks r max ideal k t) (dest : Option String) : r.Settled (ideal dest) t := by
  cases dest with
  | none => exact h.shared.right
  | some key =>
    rcases hget : k.entries.get key with - | e
    · exact (h.gone key hget).right
    · exact (h.entry key e hget).2.2.right

/-- **A limiter lets through what its bucket holds, and what the bucket gains.** -/
theorem granted_le (hr : 0 < r.limit) (hburst : 0 ≤ r.burst) (hidle : r.burst ≤ r.limit * idleTtl)
    (h : Tracks r max ideal k s) (dest : Option String) {calls : List (String × ℚ)}
    (htimes : calls.Pairwise fun c c' ↦ c.2 ≤ c'.2) (hcalls : ∀ c ∈ calls, s ≤ c.2 ∧ c.2 ≤ t)
    (hst : s ≤ t) : (k.granted dest calls : ℚ) ≤ r.level (ideal dest) s + (t - s) * r.limit := by
  induction calls generalizing k ideal s with
  | nil =>
    have hgain : 0 ≤ (t - s) * r.limit := mul_nonneg (sub_nonneg.2 hst) hr.le
    simpa [Keyed.granted] using add_nonneg (Rate.level_nonneg hr.le hburst (h.settled dest)) hgain
  | cons c calls ih =>
    obtain ⟨key, now⟩ := c
    obtain ⟨hlater, hrest⟩ := pairwise_cons.1 htimes
    obtain ⟨hsnow, hnowt⟩ := hcalls _ mem_cons_self
    obtain ⟨hanswer, hnext, -⟩ := (h.later hr.le hsnow).allow hr hburst hidle key
    have hafter := ih hnext hrest
      (fun c hc ↦ ⟨hlater c hc, (hcalls c (mem_cons_of_mem _ hc)).2⟩) hnowt
    have hgain : r.level (ideal dest) now ≤ r.level (ideal dest) s + (now - s) * r.limit := by
      rw [Rate.level_later hr.le (h.settled dest) hsnow]
      exact min_le_right _ _
    rw [Keyed.granted, hanswer, Nat.cast_add]
    by_cases hdest : k.route key now = dest
    · rw [hdest, update_self, Rate.level_allow] at hafter
      simp only [hdest, true_and, Nat.cast_ite, Nat.cast_one, Nat.cast_zero]
      linarith
    · rw [update_of_ne (Ne.symm hdest)] at hafter
      simp only [hdest, false_and, if_false, Nat.cast_zero]
      linarith

end Tracks

end Nexo.Ratelimit
