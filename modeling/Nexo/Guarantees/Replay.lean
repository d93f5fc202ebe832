import Nexo.Auth.Internal
import Nexo.Cache.Drivers
import Mathlib.Algebra.Order.Group.Abs
import Mathlib.Algebra.Order.Group.Int

/-!
# Replays of signed requests

A request is accepted within `skew` of its timestamp, both ends included, and its nonce is then held
for `2 * skew`, the end excluded. So a second acceptance is a whole `2 * skew` after the first
(`pairwise_accepted`): the two are the first and the last instant of the window. A request that is
not sent at both of them is accepted at most once (`accepted_once`), and one that is may pass twice
(`replay_at_the_ends`).
-/

namespace Nexo.Auth

open Bytes Expiring List

/-- The same service, timestamp, nonce and signature. -/
def InternalRequest.Same (r r' : InternalRequest) : Prop :=
  r.service = r'.service ∧ r.timestamp = r'.timestamp ∧ r.nonce = r'.nonce ∧ r.signature = r'.signature

instance (r r' : InternalRequest) : Decidable (r.Same r') :=
  inferInstanceAs (Decidable (_ ∧ _ ∧ _ ∧ _))

section Accepted

variable {T : Type}

/-- When a request was accepted. -/
def accepted (r : InternalRequest) (l : List (T × InternalRequest × Except (InternalErr T) Unit)) :
    List T :=
  (l.filter fun x ↦ r.Same x.2.1 && x.2.2.isOk).map (·.1)

theorem accepted_cons (r : InternalRequest) (now : T) (r' : InternalRequest)
    (res : Except (InternalErr T) Unit)
    (l : List (T × InternalRequest × Except (InternalErr T) Unit)) :
    accepted r ((now, r', res) :: l) =
      if r.Same r' ∧ res.isOk then now :: accepted r l else accepted r l := by
  simp only [accepted, filter_cons, Bool.and_eq_true, decide_eq_true_eq]
  split_ifs <;> rfl

/-- When a request was sent, whatever became of it. -/
def called {U : Type} (r : InternalRequest) : List (VerifyEvent T U) → List T
  | [] => []
  | .verify _ _ now r' _ :: events => if r.Same r' then now :: called r events else called r events
  | .upkeep _ _ :: events => called r events

end Accepted

variable {T U : Type} [LinearOrder T] [AddCommGroup T]

variable {cr : Crypto} {second : T} {D : Driver Bytes Bytes T U} {skew now : T} {s : D.State}
  {r r' : InternalRequest} {fault : Fault} {i : Internal T} {k : Bytes} {d : T}
  {events : List (VerifyEvent T U)}

theorem within_of_check (h : (i.check cr second now r).isOk) :
    ∃ ts, parseTimestamp r.timestamp = some ts ∧ |now - unix second ts| ≤ i.skew := by
  rw [Internal.check] at h
  by_cases hservice : r.service ∉ i.services
  · rw [if_pos hservice] at h
    cases h
  rw [if_neg hservice] at h
  rcases hts : parseTimestamp r.timestamp with - | ts
  · rw [hts] at h
    cases h
  · rw [hts] at h
    refine ⟨ts, rfl, le_of_not_gt fun hgt ↦ ?_⟩
    simp only [if_pos hgt] at h
    cases h

/-- **What `Verify` does**: it asks for the nonce, or leaves the store alone, and returns `nil` only
with a fresh nonce in the window. -/
theorem verify_spec (cr : Crypto) (second : T) (i : Internal T) (now : T) (r : InternalRequest)
    (fault : Fault) (s : D.State) :
    ((i.verify cr second D now r fault s).2 = s ∨ (i.verify cr second D now r fault s).2 =
      (D.apply s now (.setNX (nonceKey r) (ascii "1") (2 • i.skew))).2) ∧
    ((i.verify cr second D now r fault s).1.isOk →
      (i.check cr second now r).isOk ∧
      (D.apply s now (.setNX (nonceKey r) (ascii "1") (2 • i.skew))).1 = .fresh true ∧
      (i.verify cr second D now r fault s).2 =
        (D.apply s now (.setNX (nonceKey r) (ascii "1") (2 • i.skew))).2) := by
  rw [Internal.verify]
  rcases hcheck : i.check cr second now r with err | -
  · exact ⟨.inl rfl, nofun⟩
  · dsimp only
    split_ifs with hbefore hafter hfresh
    · exact ⟨.inl rfl, nofun⟩
    · exact ⟨.inr rfl, nofun⟩
    · exact ⟨.inr rfl, fun _ ↦ ⟨rfl, hfresh, rfl⟩⟩
    · exact ⟨.inr rfl, nofun⟩

theorem held_verify (h : Driver.Held s now k d) :
    Driver.Held (i.verify cr second D now r fault s).2 now k d := by
  rcases (verify_spec cr second i now r fault s).1 with heq | heq
  · rw [heq]
    exact h
  · rw [heq]
    exact h.setNX _ _ _

/-- Whoever has the same service and nonce needs the same key. -/
theorem InternalRequest.Same.nonceKey (h : r.Same r') : nonceKey r = nonceKey r' := by
  obtain ⟨hservice, -, hnonce, -⟩ := h
  rw [Auth.nonceKey, Auth.nonceKey, hservice, hnonce]

/-- While its nonce is held, a request is not accepted. -/
theorem le_of_mem_accepted (h : Driver.Held s now (nonceKey r) d) (hfrom : ∀ e ∈ events, now ≤ e.time)
    (hclock : events.Pairwise fun e e' ↦ e.time ≤ e'.time) {t : T}
    (ht : t ∈ accepted r (outcomes cr second D skew s events)) : d ≤ t := by
  induction events generalizing s now with
  | nil => cases ht
  | cons e events ih =>
    obtain ⟨hlater, hrest⟩ := pairwise_cons.1 hclock
    replace h := h.later (hfrom e mem_cons_self)
    cases e with
    | upkeep time u => exact ih (h.congr (congrFun (Driver.maintain_spec s time u) _)) hlater hrest ht
    | verify secrets services time r' fault =>
      rw [outcomes, accepted_cons] at ht
      split_ifs at ht with hok
      · rcases mem_cons.1 ht with rfl | ht
        · -- accepted now: the nonce was not held any more
          obtain ⟨-, hfresh, -⟩ := (verify_spec _ _ _ _ _ _ _).2 hok.2
          by_contra hlt
          obtain ⟨e, he, -⟩ := h (not_le.1 hlt)
          rcases Driver.setNX_spec s t (Auth.nonceKey r') (ascii "1") (2 • skew) with
            ⟨-, hnone, -⟩ | ⟨hfalse, -, -⟩
          · rw [← hok.1.nonceKey] at hnone
            cases he.symm.trans hnone
          · rw [hfresh] at hfalse
            cases hfalse
        · exact ih (held_verify h) hlater hrest ht
      · exact ih (held_verify h) hlater hrest ht

theorem within_of_mem_accepted {t : T}
    (ht : t ∈ accepted r (outcomes cr second D skew s events)) :
    ∃ ts, parseTimestamp r.timestamp = some ts ∧ |t - unix second ts| ≤ skew := by
  induction events generalizing s with
  | nil => cases ht
  | cons e events ih =>
    cases e with
    | upkeep time u => exact ih ht
    | verify secrets services time r' fault =>
      rw [outcomes, accepted_cons] at ht
      split_ifs at ht with hok
      · rcases mem_cons.1 ht with rfl | ht
        · rw [hok.1.2.1]
          exact within_of_check ((verify_spec _ _ _ _ _ _ _).2 hok.2).1
        · exact ih ht
      · exact ih ht

/-- **Acceptances of a request are `2 * skew` apart.** -/
theorem pairwise_accepted [IsOrderedAddMonoid T] (hskew : 0 < skew)
    (hclock : events.Pairwise fun e e' ↦ e.time ≤ e'.time) :
    (accepted r (outcomes cr second D skew s events)).Pairwise fun t t' ↦ t + 2 • skew ≤ t' := by
  induction events generalizing s with
  | nil => exact .nil
  | cons e events ih =>
    obtain ⟨hlater, hrest⟩ := pairwise_cons.1 hclock
    cases e with
    | upkeep time u => exact ih hrest
    | verify secrets services time r' fault =>
      rw [outcomes, accepted_cons]
      split_ifs with hok
      · refine pairwise_cons.2 ⟨fun t ht ↦ ?_, ih hrest⟩
        obtain ⟨-, hfresh, hstate⟩ := (verify_spec _ _ _ _ _ _ _).2 hok.2
        have hheld := Driver.held_of_fresh (nsmul_pos hskew two_ne_zero) hfresh
        rw [← hstate, ← hok.1.nonceKey] at hheld
        exact le_of_mem_accepted hheld hlater hrest ht
      · exact ih hrest

/-- Two instants of a window of radius `skew` that are `2 * skew` apart are its ends. -/
theorem eq_ends [IsOrderedAddMonoid T] {c t t' : T} (ht : |t - c| ≤ skew) (ht' : |t' - c| ≤ skew)
    (hgap : t + 2 • skew ≤ t') : t = c - skew ∧ t' = c + skew := by
  have hlow : c - skew ≤ t := sub_le_of_abs_sub_le_left ht
  have hhigh : t' ≤ c + skew := sub_le_iff_le_add'.1 (abs_sub_le_iff.1 ht').1
  have hends : c - skew + 2 • skew = c + skew := by
    rw [two_nsmul, sub_add_add_cancel]
  refine ⟨le_antisymm ?_ hlow, le_antisymm hhigh ?_⟩
  · refine le_of_add_le_add_right (a := 2 • skew) ?_
    rw [hends]
    exact hgap.trans hhigh
  · rw [← hends]
    exact (add_le_add_left hlow _).trans hgap

/-- What is accepted was sent. -/
theorem mem_called_of_mem_accepted {t : T}
    (ht : t ∈ accepted r (outcomes cr second D skew s events)) : t ∈ called r events := by
  induction events generalizing s with
  | nil => cases ht
  | cons e events ih =>
    cases e with
    | upkeep time u => exact ih ht
    | verify secrets services time r' fault =>
      rw [outcomes, accepted_cons] at ht
      rw [called]
      split_ifs at ht with hok
      · rw [if_pos hok.1]
        rcases mem_cons.1 ht with rfl | ht
        · exact mem_cons_self
        · exact mem_cons_of_mem _ (ih ht)
      · split_ifs
        · exact mem_cons_of_mem _ (ih ht)
        · exact ih ht

/-- **A signed request is accepted at most once**, by any verifiers with one cache and one clock, if
it is not sent at both ends of its window: at `ts - skew`, and again at `ts + skew`, when the nonce
has just expired. -/
theorem accepted_once [IsOrderedAddMonoid T] (cr : Crypto) (second : T) (D : Driver Bytes Bytes T U)
    (skew : T) (hskew : 0 < skew) (s : D.State) (events : List (VerifyEvent T U))
    (hclock : events.Pairwise fun e e' ↦ e.time ≤ e'.time) (r : InternalRequest)
    (hends : ∀ ts, parseTimestamp r.timestamp = some ts →
      ¬ (unix second ts - skew ∈ called r events ∧ unix second ts + skew ∈ called r events)) :
    (accepted r (outcomes cr second D skew s events)).length ≤ 1 := by
  have hgap : (accepted r (outcomes cr second D skew s events)).Pairwise
      fun t t' ↦ t + 2 • skew ≤ t' := pairwise_accepted hskew hclock
  have hwithin : ∀ t ∈ accepted r (outcomes cr second D skew s events), t ∈ called r events ∧
      ∃ ts, parseTimestamp r.timestamp = some ts ∧ |t - unix second ts| ≤ skew :=
    fun _ ht ↦ ⟨mem_called_of_mem_accepted ht, within_of_mem_accepted ht⟩
  generalize accepted r (outcomes cr second D skew s events) = times at hgap hwithin ⊢
  match times with
  | [] | [_] => simp
  | t :: t' :: rest =>
    obtain ⟨hcall, ts, hts, ht⟩ := hwithin t (by simp)
    obtain ⟨hcall', ts', hts', ht'⟩ := hwithin t' (by simp)
    cases hts.symm.trans hts'
    obtain ⟨rfl, rfl⟩ := eq_ends ht ht' ((List.pairwise_cons.1 hgap).1 t' (by simp))
    exact absurd ⟨hcall, hcall'⟩ (hends ts hts)

namespace ReplayDemo

/-- A hash and a MAC to compute with. -/
def plainCrypto : Crypto := ⟨fun b ↦ b, fun k p ↦ k ++ p⟩

/-- A request of service `a` at second 1000, signed with the key `k`. -/
def signedOnce : InternalRequest :=
  let r : InternalRequest :=
    ⟨ascii "a", ascii "1000", ascii "0123456789abcdef", ascii "POST", ascii "/", [], [], [], [], []⟩
  { r with signature := signPayload plainCrypto (ascii "k") (r.payload plainCrypto) }

/-- The request is sent at these times. -/
def calls (times : List Int) : List (VerifyEvent Int (Cache.Upkeep Bytes)) :=
  times.map fun t ↦ .verify [ascii "k"] [ascii "a"] t signedOnce .none

/-- When a verifier with the skew 300 accepts it. -/
def sentAt (times : List Int) : List Int :=
  accepted signedOnce (outcomes plainCrypto 1 (Cache.localDriver Bytes Bytes Int) 300
    (Cache.localDriver Bytes Bytes Int).new (calls times))

end ReplayDemo

open ReplayDemo in
/-- **A replay at the other end of the window is accepted**: at 700 and again at 1300. -/
theorem replay_at_the_ends : sentAt [700, 1299, 1300] = [700, 1300] := by
  decide +kernel

open ReplayDemo in
theorem accepted_once_demo :
    sentAt [700, 1000, 1299] = [700] ∧ (sentAt [700, 1000, 1299]).length ≤ 1 := by
  have hval : sentAt [700, 1000, 1299] = [700] := by decide +kernel
  refine ⟨hval, accepted_once plainCrypto 1 (Cache.localDriver Bytes Bytes Int) 300 (by decide) _ _
    (by decide) signedOnce fun ts hts hcalls ↦ ?_⟩
  cases (by decide +kernel : parseTimestamp signedOnce.timestamp = some 1000).symm.trans hts
  exact absurd hcalls.2 (by decide +kernel)

end Nexo.Auth
