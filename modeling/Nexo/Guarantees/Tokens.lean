import Nexo.Auth.Native
import Nexo.Cache.Drivers
import Mathlib.Algebra.Order.Group.Int

/-!
# One live token per user and platform

The log of what took effect determines which token passes (`Tracks`): the one of the last `Set` for
the user and platform, unless it was revoked since or has expired. Everything else is read off the
log. A path only extends it, and a token is set at most once in it (`Once`), so that a token which
has stopped passing would need a second `Set` to pass again.
-/

namespace Nexo.Auth

open Bytes Expiring List Option

/-- **Keys are distinct**, for any user ids: the platform has no colon, so the last one separates.
-/
theorem tokenKey_injective {u u' : Bytes} {p p' : Int} (h : tokenKey u p = tokenKey u' p') :
    u = u' ∧ p = p' := by
  have hcolon : ∀ n : Int, (0x3a : UInt8) ∉ ascii (Strconv.formatInt n) := by
    intro n hmem
    obtain ⟨c, hc, heq⟩ := mem_map.1 hmem
    have hlt := Strconv.toNat_lt_of_mem_formatInt hc
    have htoNat : c.toUInt8.toNat = c.toNat := Nat.mod_eq_of_lt (hlt.trans (by decide))
    rw [heq] at htoNat
    simp only [UInt8.reduceToNat] at htoNat
    omega
  simp only [tokenKey, show ascii ":" = [(0x3a : UInt8)] from rfl, append_assoc, singleton_append,
    append_cancel_left_eq] at h
  obtain ⟨hu, hp⟩ := append_sep_injective (hcolon p) (hcolon p') h
  refine ⟨hu, Strconv.formatInt_injective (ascii_injOn (fun c hc ↦ ?_) (fun c hc ↦ ?_) hp)⟩ <;>
    have := Strconv.toNat_lt_of_mem_formatInt hc <;> omega

theorem update_tokenKey_of_ne {α : Type} {m : Bytes → α} {a : α} {u u' : Bytes} {p p' : Int}
    (h : ¬(u' = u ∧ p' = p)) : Function.update m (tokenKey u' p') a (tokenKey u p) = m (tokenKey u p) :=
  Function.update_of_ne (fun heq ↦ h ((tokenKey_injective heq).imp Eq.symm Eq.symm)) _ _

/-! ### What the log says -/

section Log

variable {T : Type} {u : Bytes} {p : Int} {id : Bytes} {setAt ttl : T} {e : TokenEffect T}
  {log : List (TokenEffect T)}

/-- The effect is a `Set` for the user and platform. -/
def TokenEffect.Sets (u : Bytes) (p : Int) : TokenEffect T → Prop
  | .set u' p' _ _ _ => u' = u ∧ p' = p
  | .revoked _ _ _ => False

/-- The last `Set` for the user and platform is this one, and its token was not revoked since. -/
def LastSet (log : List (TokenEffect T)) (u : Bytes) (p : Int) (id : Bytes) (setAt ttl : T) : Prop :=
  ∃ newer older, log = newer ++ .set u p id setAt ttl :: older ∧
    ∀ e ∈ newer, ¬e.Sets u p ∧ e ≠ .revoked u p id

theorem not_lastSet_nil : ¬LastSet [] u p id setAt ttl := by
  rintro ⟨newer, older, hlog, -⟩
  simp at hlog

theorem LastSet.mem (h : LastSet log u p id setAt ttl) : .set u p id setAt ttl ∈ log := by
  obtain ⟨newer, older, rfl, -⟩ := h
  simp

theorem lastSet_cons : LastSet (e :: log) u p id setAt ttl ↔
    e = .set u p id setAt ttl ∨
      ¬e.Sets u p ∧ e ≠ .revoked u p id ∧ LastSet log u p id setAt ttl := by
  constructor
  · rintro ⟨newer, older, hlog, hnewer⟩
    rcases newer with - | ⟨e', newer⟩
    · exact .inl (cons.inj hlog).1
    · obtain ⟨rfl, hrest⟩ := cons.inj hlog
      obtain ⟨hsets, hrevoked⟩ := hnewer e mem_cons_self
      exact .inr ⟨hsets, hrevoked, newer, older, hrest, fun x hx ↦ hnewer x (mem_cons_of_mem _ hx)⟩
  · rintro (rfl | ⟨hsets, hrevoked, newer, older, rfl, hnewer⟩)
    · exact ⟨[], log, rfl, nofun⟩
    · exact ⟨e :: newer, older, rfl, forall_mem_cons.2 ⟨⟨hsets, hrevoked⟩, hnewer⟩⟩

/-- An effect that does not concern the token. -/
theorem lastSet_cons_of (hsets : ¬e.Sets u p)
    (hrevoked : LastSet log u p id setAt ttl → e ≠ .revoked u p id) :
    LastSet (e :: log) u p id setAt ttl ↔ LastSet log u p id setAt ttl := by
  rw [lastSet_cons]
  constructor
  · rintro (rfl | ⟨-, -, hlast⟩)
    · exact absurd ⟨rfl, rfl⟩ hsets
    · exact hlast
  · exact fun hlast ↦ .inr ⟨hsets, hrevoked hlast, hlast⟩

variable [LinearOrder T] [AddCommGroup T]

/-- The entry of the last `Set`, if its token was not revoked since. -/
def current (u : Bytes) (p : Int) : List (TokenEffect T) → Option (Entry Bytes T)
  | [] => none
  | .set u' p' id setAt ttl :: log =>
    if u' = u ∧ p' = p then some ⟨id, deadline setAt ttl⟩ else current u p log
  | .revoked u' p' id :: log =>
    if u' = u ∧ p' = p ∧ (current u p log).map (·.val) = some id then none else current u p log

theorem current_eq_some_iff {entry : Entry Bytes T} : current u p log = some entry ↔
    ∃ id setAt ttl, LastSet log u p id setAt ttl ∧ entry = ⟨id, deadline setAt ttl⟩ := by
  induction log generalizing entry with
  | nil => simp [current, not_lastSet_nil]
  | cons e log ih =>
    cases e with
    | set u' p' id' setAt' ttl' =>
      by_cases hsame : u' = u ∧ p' = p
      · obtain ⟨rfl, rfl⟩ := hsame
        rw [current, if_pos ⟨rfl, rfl⟩, some_inj]
        constructor
        · rintro rfl
          exact ⟨id', setAt', ttl', lastSet_cons.2 (.inl rfl), rfl⟩
        · rintro ⟨id, setAt, ttl, hlast, rfl⟩
          rcases lastSet_cons.1 hlast with heq | ⟨hsets, -, -⟩
          · cases heq
            rfl
          · exact absurd ⟨rfl, rfl⟩ hsets
      · rw [current, if_neg hsame, ih]
        refine exists_congr fun id ↦ exists_congr fun setAt ↦ exists_congr fun ttl ↦ and_congr_left' ?_
        exact (lastSet_cons_of (e := .set u' p' id' setAt' ttl') hsame fun _ ↦ nofun).symm
    | revoked u' p' id' =>
      by_cases hsame : u' = u ∧ p' = p ∧ (current u p log).map (·.val) = some id'
      · obtain ⟨rfl, rfl, hval⟩ := hsame
        rw [current, if_pos ⟨rfl, rfl, hval⟩]
        refine ⟨nofun, ?_⟩
        rintro ⟨id, setAt, ttl, hlast, rfl⟩
        rcases lastSet_cons.1 hlast with heq | ⟨-, hrevoked, hlast⟩
        · cases heq
        · rw [ih.2 ⟨id, setAt, ttl, hlast, rfl⟩] at hval
          exact absurd (congrArg _ (some.inj hval).symm) hrevoked
      · rw [current, if_neg hsame, ih]
        refine exists_congr fun id ↦ exists_congr fun setAt ↦ exists_congr fun ttl ↦ and_congr_left' ?_
        refine (lastSet_cons_of (e := .revoked u' p' id') not_false fun hlast heq ↦ ?_).symm
        cases heq
        exact hsame ⟨rfl, rfl, by rw [ih.2 ⟨_, setAt, ttl, hlast, rfl⟩]; rfl⟩

end Log

/-! ### What a step does -/

section Steps

variable {T U : Type} [LinearOrder T] [AddCommGroup T] {D : Driver Bytes Bytes T U}
  {jwt : Bytes → NativeClaims T → Option Bytes} {σ σ' : TokenState D} {event : TokenEvent T U}
  {u : Bytes} {p : Int} {id : Bytes}

theorem issue_state (jwt : Bytes → NativeClaims T → Option Bytes) (n : Native T) (now setAt : T)
    (u : Bytes) (p : Int) (id : Bytes) (fault : Fault) (s : D.State) :
    (n.issue D jwt now setAt u p id fault s).2 =
      if (jwt n.secret (n.claims now u p id)).isSome ∧ fault ≠ .before then
        (D.apply s setAt (.set (tokenKey u p) id n.ttl)).2
      else s := by
  rw [Native.issue]
  rcases jwt n.secret (n.claims now u p id) with - | token
  · rfl
  · cases fault <;> rfl

theorem revoke_state (now : T) (u : Bytes) (p : Int) (id : Bytes) (fault : Fault) (s : D.State) :
    (Native.revoke D now u p id fault s).2 =
      if fault ≠ .before then (D.apply s now (.delIfValue (tokenKey u p) id)).2 else s := by
  cases fault <;> rfl

/-- `Check` does not change what is left. -/
theorem left_check (now : T) (u : Bytes) (p : Int) (id : Bytes) (fault : Fault) (s : D.State) :
    D.left (Native.check D now u p id fault s).2 now = D.left s now := by
  cases fault with
  | before => rfl
  | after | none => exact (Driver.get_spec s now (tokenKey u p)).2

/-- A token passes if it is what is left under its key. -/
theorem passes_iff_left :
    σ.passes u p id ↔ (D.left σ.store σ.clock (tokenKey u p)).map (·.val) = some id := by
  have hget := (Driver.get_spec σ.store σ.clock (tokenKey u p)).1
  rw [TokenState.passes, Native.check, cacheCall]
  simp only [hget, Result.value.injEq]
  split_ifs with hval
  · simp [hval]
  · simp [hval]

/-- What is left under the keys is what the log says. -/
def Tracks (σ : TokenState D) : Prop :=
  ∀ u p, D.left σ.store σ.clock (tokenKey u p) = (current u p σ.log).filter (Entry.alive σ.clock)

section

variable (h : Tracks σ)
include h

theorem Tracks.set (u : Bytes) (p : Int) (id : Bytes) (ttl : T) :
    Tracks { σ with store := (D.apply σ.store σ.clock (.set (tokenKey u p) id ttl)).2,
                    log := .set u p id σ.clock ttl :: σ.log } := by
  intro u' p'
  refine (congrFun (Driver.set_spec σ.store σ.clock (tokenKey u p) id ttl) _).trans ?_
  by_cases hsame : u = u' ∧ p = p'
  · obtain ⟨rfl, rfl⟩ := hsame
    rw [Function.update_self, current, if_pos ⟨rfl, rfl⟩]
  · rw [update_tokenKey_of_ne hsame, h, current, if_neg hsame]

theorem Tracks.revoke (u : Bytes) (p : Int) (id : Bytes) :
    Tracks { σ with store := (D.apply σ.store σ.clock (.delIfValue (tokenKey u p) id)).2,
                    log := .revoked u p id :: σ.log } := by
  intro u' p'
  refine (congrFun (Driver.delIfValue_spec σ.store σ.clock (tokenKey u p) id) _).trans ?_
  by_cases hsame : u = u' ∧ p = p'
  · obtain ⟨rfl, rfl⟩ := hsame
    -- the entry is deleted if it has the value, and no longer counts if it has expired
    by_cases hval : (current u p σ.log).map (·.val) = some id
    · rw [current, if_pos (c := _ ∧ _) ⟨rfl, rfl, hval⟩, filter_none]
      split_ifs with hleft
      · exact Function.update_self ..
      · obtain ⟨e, he, rfl⟩ := map_eq_some_iff.1 hval
        rw [h, he] at hleft ⊢
        by_cases halive : e.alive σ.clock
        · exact absurd (by simp [halive]) hleft
        · simp [halive]
    · have hleft : (D.left σ.store σ.clock (tokenKey u p)).map (·.val) ≠ some id := by
        intro heq
        obtain ⟨e, he, hid⟩ := map_eq_some_iff.1 heq
        rw [h, filter_eq_some_iff] at he
        exact hval (map_eq_some_iff.2 ⟨e, he.1, hid⟩)
      rw [if_neg hleft, h, current, if_neg fun hand ↦ hval hand.2.2]
  · have hne : ¬(u = u' ∧ p = p' ∧ (current u' p' σ.log).map (·.val) = some id) :=
      fun hand ↦ hsame ⟨hand.1, hand.2.1⟩
    rw [current, if_neg hne, ← h]
    split_ifs
    · exact update_tokenKey_of_ne hsame
    · rfl

theorem Tracks.later {clock : T} (hle : σ.clock ≤ clock) :
    Tracks { σ with clock } := by
  intro u p
  refine (Driver.left_later hle _).trans ?_
  rw [h, Option.filter_filter]
  refine congrArg (Option.filter · _) (funext fun e ↦ ?_)
  rw [Bool.eq_iff_iff, Bool.and_eq_true]
  exact ⟨And.right, fun halive ↦ ⟨Entry.alive_of_le hle halive, halive⟩⟩

theorem Tracks.next (hnext : σ.next jwt event = some σ') : Tracks σ' := by
  cases event with
  | start native u p id =>
    rw [TokenState.next] at hnext
    split_ifs at hnext
    cases hnext
    exact h
  | issue i fault =>
    obtain ⟨c, -, rfl⟩ := map_eq_some_iff.1 hnext
    rw [issue_state]
    split_ifs
    · exact h.set _ _ _ _
    · exact h
  | revoke u p id fault =>
    cases hnext
    rw [revoke_state]
    split_ifs
    · exact h.revoke _ _ _
    · exact h
  | check u p id fault =>
    cases hnext
    exact fun u' p' ↦ (congrFun (left_check ..) _).trans (h u' p')
  | upkeep x =>
    cases hnext
    exact fun u' p' ↦ (congrFun (Driver.maintain_spec ..) _).trans (h u' p')
  | tick clock =>
    rw [TokenState.next] at hnext
    split_ifs at hnext with hle
    cases hnext
    exact h.later hle

theorem passes_iff : σ.passes u p id ↔
    ∃ setAt ttl, LastSet σ.log u p id setAt ttl ∧ (ttl ≤ 0 ∨ σ.clock < setAt + ttl) := by
  have halive : ∀ setAt ttl : T, Entry.alive σ.clock ⟨id, deadline setAt ttl⟩ = true ↔
      ttl ≤ 0 ∨ σ.clock < setAt + ttl := by
    intro setAt ttl
    rw [deadline]
    by_cases hpos : ttl ≤ 0 <;> simp [Entry.alive, hpos]
  rw [passes_iff_left, h, map_eq_some_iff]
  constructor
  · rintro ⟨e, he, rfl⟩
    obtain ⟨hcurrent, hlive⟩ := filter_eq_some_iff.1 he
    obtain ⟨id, setAt, ttl, hlast, rfl⟩ := current_eq_some_iff.1 hcurrent
    exact ⟨setAt, ttl, hlast, (halive setAt ttl).1 hlive⟩
  · rintro ⟨setAt, ttl, hlast, hlive⟩
    have hcurrent := current_eq_some_iff.2 ⟨id, setAt, ttl, hlast, rfl⟩
    exact ⟨_, filter_eq_some_iff.2 ⟨hcurrent, (halive setAt ttl).2 hlive⟩, rfl⟩

end

/-- `Revoke` concerns one token. -/
theorem passes_revoke {fault : Fault} {u' : Bytes} {p' : Int} {id' : Bytes}
    (hnext : σ.next jwt (.revoke u p id fault) = some σ') (hne : (u', p', id') ≠ (u, p, id)) :
    σ'.passes u' p' id' ↔ σ.passes u' p' id' := by
  cases hnext
  rw [passes_iff_left, passes_iff_left, revoke_state]
  by_cases hbefore : fault ≠ .before
  · rw [if_pos hbefore, Driver.delIfValue_spec]
    split_ifs with hval
    · by_cases hsame : u = u' ∧ p = p'
      · -- its token is deleted, which is not this one
        obtain ⟨rfl, rfl⟩ := hsame
        have hid : id ≠ id' := fun heq ↦ hne (heq ▸ rfl)
        simp [hval, hid]
      · rw [update_tokenKey_of_ne hsame]
    · rfl
  · rw [if_neg hbefore]

/-! ### A token is set once -/

/-- The token that is set. -/
def TokenEffect.token : TokenEffect T → Option Bytes
  | .set _ _ id _ _ => some id
  | .revoked _ _ _ => none

/-- The ids that were set or are under way were made once. -/
def Once (σ : TokenState D) : Prop :=
  (σ.log.filterMap TokenEffect.token ++ σ.issuing.map (·.id)).Nodup ∧
    σ.log.filterMap TokenEffect.token ++ σ.issuing.map (·.id) ⊆ σ.made

theorem Once.next (h : Once σ) (hnext : σ.next jwt event = some σ') : Once σ' := by
  obtain ⟨hnodup, hmade⟩ := h
  cases event with
  | start native u p id =>
    rw [TokenState.next] at hnext
    split_ifs at hnext with hid
    cases hnext
    have hlist : σ.log.filterMap TokenEffect.token ++
        (σ.issuing ++ [(⟨native, σ.clock, u, p, id⟩ : Issuing T)]).map (·.id) =
        σ.log.filterMap TokenEffect.token ++ σ.issuing.map (·.id) ++ [id] := by simp
    rw [Once, hlist]
    refine ⟨hnodup.append (nodup_singleton id) ?_, ?_⟩
    · rw [disjoint_singleton]
      exact fun hmem ↦ hid (hmade hmem)
    · exact append_subset.2 ⟨List.Subset.trans hmade (subset_cons_self ..), by simp⟩
  | issue i fault =>
    obtain ⟨c, hc, rfl⟩ := map_eq_some_iff.1 hnext
    obtain ⟨hi, rfl⟩ := List.getElem?_eq_some_iff.1 hc
    -- the id moves from the calls under way to the log, or is gone
    have hperm : (σ.log.filterMap TokenEffect.token ++ σ.issuing.map (·.id)).Perm
        ((σ.issuing[i].id :: σ.log.filterMap TokenEffect.token) ++ (σ.issuing.eraseIdx i).map (·.id)) := by
      refine .trans (.append_left _ ((getElem_cons_eraseIdx_perm hi).symm.map _)) ?_
      exact perm_middle
    split_ifs
    · exact ⟨hperm.nodup_iff.1 hnodup, List.Subset.trans hperm.symm.subset hmade⟩
    · refine ⟨(nodup_cons.1 (hperm.nodup_iff.1 hnodup)).2, ?_⟩
      exact (cons_subset.1 (List.Subset.trans hperm.symm.subset hmade)).2
  | revoke u p id fault =>
    cases hnext
    split_ifs <;> exact ⟨hnodup, hmade⟩
  | check u p id fault | upkeep x =>
    cases hnext
    exact ⟨hnodup, hmade⟩
  | tick clock =>
    rw [TokenState.next] at hnext
    split_ifs at hnext
    cases hnext
    exact ⟨hnodup, hmade⟩

theorem log_next (hnext : σ.next jwt event = some σ') :
    σ.clock ≤ σ'.clock ∧ σ.log <:+ σ'.log := by
  cases event with
  | start native u p id =>
    rw [TokenState.next] at hnext
    split_ifs at hnext
    cases hnext
    exact ⟨le_rfl, suffix_rfl⟩
  | issue i fault =>
    obtain ⟨c, -, rfl⟩ := map_eq_some_iff.1 hnext
    refine ⟨le_rfl, ?_⟩
    split_ifs
    exacts [suffix_cons .., suffix_rfl]
  | revoke u p id fault =>
    cases hnext
    refine ⟨le_rfl, ?_⟩
    split_ifs
    exacts [suffix_cons .., suffix_rfl]
  | check u p id fault | upkeep x =>
    cases hnext
    exact ⟨le_rfl, suffix_rfl⟩
  | tick clock =>
    rw [TokenState.next] at hnext
    split_ifs at hnext with hle
    cases hnext
    exact ⟨hle, suffix_rfl⟩

/-- Effects that set the same token are the same. -/
theorem Once.eq_of_token (h : Once σ) {e e' : TokenEffect T} (he : e ∈ σ.log) (he' : e' ∈ σ.log)
    (hid : e.token = some id) (hid' : e'.token = some id) : e = e' := by
  have hpair := pairwise_filterMap.1 h.1.of_append_left
  have hsymm : Std.Symm fun a b : TokenEffect T ↦
      ∀ x, a.token = some x → ∀ y, b.token = some y → x ≠ y :=
    ⟨fun a b hab y hy x hx heq ↦ hab x hx y hy heq.symm⟩
  by_contra hne
  exact hpair.forall he he' hne id hid id hid' rfl

/-- A token that passes now, and was set before, passed since it was set. -/
theorem Once.passed (honce : Once σ') (htracks : Tracks σ) (htracks' : Tracks σ')
    (hclock : σ.clock ≤ σ'.clock) (hlog : σ.log <:+ σ'.log) {e : TokenEffect T} (he : e ∈ σ.log)
    (hid : e.token = some id) (h : σ'.passes u p id) : σ.passes u p id := by
  obtain ⟨setAt, ttl, ⟨newer, older, hsplit, hnewer⟩, hlive⟩ := (passes_iff htracks').1 h
  refine (passes_iff htracks).2 ⟨setAt, ttl, ?_, hlive.imp_right hclock.trans_lt⟩
  obtain ⟨ext, hext⟩ := hlog
  rw [← hext] at hsplit
  rcases append_eq_append_iff.1 hsplit with ⟨mid, rfl, hold⟩ | ⟨mid, hnew, hold⟩
  · exact ⟨mid, older, hold, fun x hx ↦ hnewer x (mem_append_right _ hx)⟩
  · -- else the token was set after `σ`, and before it too
    rcases mid with - | ⟨x, mid⟩
    · exact ⟨[], older, hold.symm, nofun⟩
    · obtain ⟨rfl, -⟩ := cons.inj hold
      have hnodup := honce.1.of_append_left
      rw [← hext, filterMap_append, hnew] at hnodup
      refine (disjoint_of_nodup_append hnodup (a := id) ?_ ?_).elim
      · simp [TokenEffect.token]
      · exact mem_filterMap.2 ⟨e, he, hid⟩

end Steps

/-! ### Every run -/

section Runs

variable {T U : Type} [LinearOrder T] [AddCommGroup T] {D : Driver Bytes Bytes T U}
  {jwt : Bytes → NativeClaims T → Option Bytes} {clock : T} {σ σ' : TokenState D}

theorem tracks_of_reachable (h : (tokenSystem D jwt clock).Reachable σ) : Tracks σ := by
  refine Machine.System.invariant ?_ (fun _ _ _ _ htracks hnext ↦ htracks.next hnext) h
  rintro - rfl u p
  exact Driver.left_new ..

theorem once_of_reachable (h : (tokenSystem D jwt clock).Reachable σ) : Once σ := by
  refine Machine.System.invariant ?_ (fun _ _ _ _ honce hnext ↦ honce.next hnext) h
  rintro - rfl
  exact ⟨nodup_nil, nil_subset _⟩

theorem log_of_path {events : List (TokenEvent T U)} (h : (tokenSystem D jwt clock).Path σ events σ') :
    σ.clock ≤ σ'.clock ∧ σ.log <:+ σ'.log := by
  refine h.preserves (P := fun ρ ↦ σ.clock ≤ ρ.clock ∧ σ.log <:+ ρ.log) ?_ ⟨le_rfl, suffix_rfl⟩
  rintro ρ e ρ' ⟨hclock, hlog⟩ hnext
  exact ⟨hclock.trans (log_next hnext).1, hlog.trans (log_next hnext).2⟩

/-- **One live token per user and platform**, in every run over any cache driver, with any calls,
failures and passage of time. A token passes `Check` if and only if the last `Set` that took effect
for its user and platform is its own, and it was neither revoked since nor has expired; so at most
one passes. A token that has stopped passing never passes again, and `Revoke` changes the outcome
for no other token. -/
theorem one_live_token (D : Driver Bytes Bytes T U) (jwt : Bytes → NativeClaims T → Option Bytes)
    (clock : T) (σ : TokenState D) (hσ : (tokenSystem D jwt clock).Reachable σ) :
    (∀ u p id, σ.passes u p id ↔
      ∃ setAt ttl, LastSet σ.log u p id setAt ttl ∧ (ttl ≤ 0 ∨ σ.clock < setAt + ttl)) ∧
    (∀ u p id id', σ.passes u p id → σ.passes u p id' → id = id') ∧
    (∀ u p id events events' σ' σ'', (tokenSystem D jwt clock).Path σ events σ' →
      (tokenSystem D jwt clock).Path σ' events' σ'' → σ.passes u p id → ¬σ'.passes u p id →
      ∀ u' p', ¬σ''.passes u' p' id) ∧
    ∀ u p id fault σ', (tokenSystem D jwt clock).step σ (.revoke u p id fault) σ' →
      ∀ u' p' id', (u', p', id') ≠ (u, p, id) → (σ'.passes u' p' id' ↔ σ.passes u' p' id') := by
  have htracks := tracks_of_reachable hσ
  refine ⟨fun u p id ↦ passes_iff htracks, ?_, ?_, ?_⟩
  · intro u p id id' h h'
    exact Option.some.inj ((passes_iff_left.1 h).symm.trans (passes_iff_left.1 h'))
  · intro u p id events events' σ' σ'' hpath hpath' hpassed hstopped u' p' hpasses
    have hσ' := hσ.path hpath
    obtain ⟨-, hlog⟩ := log_of_path hpath
    obtain ⟨hclock', hlog'⟩ := log_of_path hpath'
    obtain ⟨setAt, ttl, hlast, -⟩ := (passes_iff htracks).1 hpassed
    have hmem := hlog.subset hlast.mem
    have hpassed' := (once_of_reachable (hσ'.path hpath')).passed (tracks_of_reachable hσ')
      (tracks_of_reachable (hσ'.path hpath')) hclock' hlog' hmem rfl hpasses
    obtain ⟨setAt', ttl', hlast', -⟩ := (passes_iff (tracks_of_reachable hσ')).1 hpassed'
    cases (once_of_reachable hσ').eq_of_token hmem hlast'.mem rfl rfl
    exact hstopped hpassed'
  · intro u p id fault σ' hstep u' p' id' hne
    exact passes_revoke hstep hne

end Runs

namespace TokensDemo

/-- A user logs in on platform 1 twice; the logout of the first login arrives late. A second user,
whose id continues the first one's with a colon, is not concerned. -/
def lateLogout : List (TokenEvent Int (Cache.Upkeep Bytes)) :=
  let n : Native Int := ⟨ascii "k", 10⟩
  [.start n (ascii "a") 1 (ascii "t1"), .start n (ascii "a:1") 1 (ascii "t2"), .issue 0 .none,
    .start n (ascii "a") 1 (ascii "t3"), .tick 3, .issue 0 .none, .issue 0 .none,
    .revoke (ascii "a") 1 (ascii "t1") .none, .upkeep .sweep]

end TokensDemo

open TokensDemo in
theorem one_live_token_demo : ∃ σ, Machine.System.replay (TokenState.next fun _ c ↦ some c.id)
      ⟨0, (Cache.localDriver Bytes Bytes Int).new, [], [], []⟩ lateLogout = some σ ∧
    σ.passes (ascii "a") 1 (ascii "t3") ∧ ¬σ.passes (ascii "a") 1 (ascii "t1") := by
  have hrun : ∃ σ, Machine.System.replay (TokenState.next fun _ c ↦ some c.id)
      ⟨0, (Cache.localDriver Bytes Bytes Int).new, [], [], []⟩ lateLogout = some σ ∧
      (Native.check _ σ.clock (ascii "a") 1 (ascii "t3") .none σ.store).1 = .ok () :=
    ⟨_, rfl, by decide +kernel⟩
  obtain ⟨σ, hreplay, hpasses⟩ := hrun
  obtain ⟨-, hone, -⟩ := one_live_token _ _ 0 σ (Machine.System.reachable_of_replay hreplay)
  refine ⟨σ, hreplay, hpasses, fun hpasses' ↦ ?_⟩
  exact absurd (hone _ _ _ _ hpasses hpasses') (by decide)

end Nexo.Auth
