import Nexo.Service.Members
import Mathlib.Algebra.Order.Group.Int

/-!
# Rosters after an invalidation

A roster in the cache has seen every commit that preceded the last `InvalidateGroup` of its group,
as long as every `set` is such (`Ordered`): the cache is filled outside the mutex, from a listing
that an invalidation may have overtaken. Such a fill is served to the next caller
(`overtaken_fill_served`).
-/

namespace Nexo.Members

open Machine List Option

variable {T : Type} {σ σ' : RosterState T} {i : ℕ} {c : RecipientsCall}

/-- What the call is about to put into the cache. -/
def RecipientsCall.fill (c : RecipientsCall) : Option Listing :=
  match c.stage with
  | .listed l => some l
  | _ => none

/-- A roster that is put into the cache has seen the commits that preceded the last
`InvalidateGroup` of its group. -/
def Ordered (σ : RosterState T) : RosterEvent T → Prop
  | .set i _ _ => ∀ c ∈ σ.calls[i]?, ∀ l ∈ c.fill, σ.invalidated c.groupId <:+ l.seen
  | _ => True

instance (σ : RosterState T) : ∀ e : RosterEvent T, Decidable (Ordered σ e)
  | .set i _ _ =>
    inferInstanceAs (Decidable (∀ c ∈ σ.calls[i]?, ∀ l ∈ c.fill, σ.invalidated c.groupId <:+ l.seen))
  | .commit _ _ | .invalidateGroup _ | .call _ | .get _ _ | .list _ _ => .isTrue trivial

/-- The roster is the one that the last commit it has seen left. -/
def Listing.Genuine (l : Listing) : Prop := l.ids = l.seen.headD []

/-- A roster that the call has is good enough for it. -/
def Yields (c : RecipientsCall) : Prop :=
  ∀ l, c.stage = .listed l ∨ c.stage = .returned l → c.owed <:+ l.seen ∧ l.Genuine

/-- Invalidations are past; rosters in the cache have seen what preceded them, and calls owe no
more. -/
structure Fresh (σ : RosterState T) : Prop where
  past : ∀ g, σ.invalidated g <:+ σ.history g
  cached : ∀ g e, σ.cache.entries.lookup g = some e →
    σ.invalidated g <:+ e.ids.seen ∧ e.ids.Genuine
  owed : ∀ c ∈ σ.calls, c.owed <:+ σ.invalidated c.groupId
  yields : ∀ c ∈ σ.calls, Yields c

theorem Fresh.move (h : Fresh σ) (hc : σ.calls[i]? = some c) {stage : Stage}
    (hyields : Yields { c with stage }) : Fresh (σ.move i c stage) where
  past := h.past
  cached := h.cached
  owed := by
    intro d hd
    rcases mem_or_eq_of_mem_set hd with hd | rfl
    · exact h.owed d hd
    · exact h.owed c (mem_of_getElem? hc)
  yields := by
    intro d hd
    rcases mem_or_eq_of_mem_set hd with hd | rfl
    · exact h.yields d hd
    · exact hyields

variable [LinearOrder T] [AddCommGroup T]

theorem Fresh.next (h : Fresh σ) {event : RosterEvent T} (hordered : Ordered σ event)
    (hnext : σ.next event = some σ') : Fresh σ' := by
  cases event with
  | commit g ids =>
    cases hnext
    refine { h with past := fun g' ↦ ?_ }
    by_cases hg : g' = g
    · subst hg
      simpa using (h.past g').trans (suffix_cons ..)
    · simpa [hg] using h.past g'
  | invalidateGroup g =>
    cases hnext
    have hgrows : ∀ g', σ.invalidated g' <:+ Function.update σ.invalidated g (σ.history g) g' := by
      intro g'
      by_cases hg : g' = g
      · subst hg
        simpa using h.past g'
      · simp [hg]
    refine ⟨fun g' ↦ ?_, fun g' e he ↦ ?_, fun d hd ↦ (h.owed d hd).trans (hgrows _), h.yields⟩
    · by_cases hg : g' = g
      · subst hg
        simp
      · simpa [hg] using h.past g'
    · obtain ⟨hg, he⟩ := lookup_of_lookup_erase he
      simpa [hg] using h.cached g' e he
  | call g =>
    cases hnext
    refine ⟨h.past, h.cached, fun d hd ↦ ?_, fun d hd ↦ ?_⟩
    · rcases mem_append.1 hd with hd | hd
      · exact h.owed d hd
      · cases mem_singleton.1 hd
        exact suffix_rfl
    · rcases mem_append.1 hd with hd | hd
      · exact h.yields d hd
      · cases mem_singleton.1 hd
        exact nofun
  | get i now =>
    obtain ⟨c, hc, hnext⟩ := bind_eq_some_iff.1 hnext
    split_ifs at hnext
    cases hnext
    obtain ⟨hfound, hleft⟩ := get_spec σ.cache now c.groupId
    have hcache : Fresh { σ with cache := (σ.cache.get now c.groupId).2 } :=
      { h with cached := fun g e he ↦ h.cached g e (hleft g e he) }
    refine hcache.move hc fun l hl ↦ ?_
    rcases hget : (σ.cache.get now c.groupId).1 with - | l'
    · rw [hget] at hl
      rcases hl with hl | hl <;> cases hl
    · -- a hit has seen what preceded the last invalidation, which the call owes at most
      rw [hget] at hl
      obtain rfl : l' = l := by
        rcases hl with hl | hl <;> cases hl
        rfl
      obtain ⟨e, he, rfl⟩ := hfound l' hget
      obtain ⟨hseen, hgenuine⟩ := h.cached _ e he
      exact ⟨(h.owed c (mem_of_getElem? hc)).trans hseen, hgenuine⟩
  | list i fails =>
    obtain ⟨c, hc, hnext⟩ := bind_eq_some_iff.1 hnext
    split_ifs at hnext <;> cases hnext
    · exact h.move hc nofun
    · refine h.move hc fun l hl ↦ ?_
      rcases hl with hl | hl <;> cases hl
      exact ⟨(h.owed c (mem_of_getElem? hc)).trans (h.past _), rfl⟩
  | set i now now' =>
    obtain ⟨c, hc, hnext⟩ := bind_eq_some_iff.1 hnext
    split at hnext
    next l hl =>
      cases hnext
      have hyields := h.yields c (mem_of_getElem? hc) l (.inl hl)
      have hcache : Fresh { σ with cache := σ.cache.set now now' c.groupId l } := by
        refine { h with cached := fun g e he ↦ ?_ }
        rcases lookup_of_lookup_set he with ⟨rfl, rfl⟩ | he
        · exact ⟨hordered c hc _ (by rw [RecipientsCall.fill, hl]; rfl), hyields.2⟩
        · exact h.cached g e he
      refine hcache.move hc fun l' hl' ↦ ?_
      rcases hl' with hl' | hl' <;> cases hl'
      exact hyields
    next => cases hnext

theorem fresh_of_reachable {ttl : T} (h : ((rosterSystem ttl).restrict Ordered).Reachable σ) :
    Fresh σ := by
  refine System.invariant (I := Fresh) ?_ ?_ h
  · rintro - rfl
    exact ⟨fun _ ↦ suffix_rfl, nofun, nofun, nofun⟩
  · exact fun _ _ _ _ hfresh hstep ↦ hfresh.next hstep.2 hstep.1

/-! ### A fill that was overtaken -/

theorem ttl_next {event : RosterEvent T} (hnext : σ.next event = some σ') :
    σ'.cache.ttl = σ.cache.ttl := by
  cases event with
  | commit g ids | invalidateGroup g | call g =>
    cases hnext
    rfl
  | get i now =>
    obtain ⟨c, -, hnext⟩ := bind_eq_some_iff.1 hnext
    split_ifs at hnext
    cases hnext
    exact ttl_get ..
  | list i fails =>
    obtain ⟨c, -, hnext⟩ := bind_eq_some_iff.1 hnext
    split_ifs at hnext <;> cases hnext <;> rfl
  | set i now now' =>
    obtain ⟨c, -, hnext⟩ := bind_eq_some_iff.1 hnext
    split at hnext
    next =>
      cases hnext
      exact ttl_set ..
    next => cases hnext

theorem ttl_of_reachable {ttl : T} (h : (rosterSystem ttl).Reachable σ) : σ.cache.ttl = ttl := by
  refine System.invariant (I := fun σ ↦ σ.cache.ttl = ttl) ?_ ?_ h
  · rintro - rfl
    rfl
  · exact fun _ _ _ _ httl hnext ↦ (ttl_next hnext).trans httl

/-- **A fill that an invalidation overtook is served** to a caller that comes after both. -/
theorem overtaken_fill_served [IsOrderedAddMonoid T] {ttl : T} (hpos : 0 < ttl)
    (h : (rosterSystem ttl).Reachable σ) {now now' : T} (hordered : ¬Ordered σ (.set i now now')) :
    ∃ events σ', (rosterSystem ttl).Path σ events σ' ∧
      ∃ c ∈ σ'.calls, ∃ l, c.stage = .returned l ∧ ¬c.owed <:+ l.seen := by
  simp only [Ordered, not_forall] at hordered
  obtain ⟨⟨g, owed, stage⟩, hc, l, hl, hstale⟩ := hordered
  obtain rfl : stage = .listed l := by
    cases stage <;> cases hl
    rfl
  rw [mem_def] at hc
  -- the fill, a call, and its look into the cache
  let σ₁ := { σ with cache := σ.cache.set now now' g l }.move i ⟨g, owed, .listed l⟩ (.returned l)
  let σ₂ : RosterState T := { σ₁ with calls := σ₁.calls ++ [⟨g, σ.invalidated g, .started⟩] }
  let σ₃ := { σ₂ with cache := (σ₂.cache.get now' g).2 }.move σ₁.calls.length ⟨g, σ.invalidated g, .started⟩
    (.returned l)
  have hfill : σ.next (.set i now now') = some σ₁ := by
    rw [RosterState.next, hc]
    rfl
  have hget : σ₂.next (.get σ₁.calls.length now') = some σ₃ := by
    have hfound : (σ₂.cache.get now' g).1 = some l := get_set ((ttl_of_reachable h).symm ▸ hpos)
    have hcall : σ₂.calls[σ₁.calls.length]? = some ⟨g, σ.invalidated g, .started⟩ := by simp [σ₂]
    rw [RosterState.next, hcall, bind_some, if_pos rfl, hfound]
    rfl
  refine ⟨[.get σ₁.calls.length now', .call g, .set i now now'], σ₃, ?_, ⟨g, σ.invalidated g, .returned l⟩,
    ?_, l, rfl, hstale⟩
  · have hcall : σ₁.next (.call g) = some σ₂ := rfl
    exact (((System.Path.refl σ).step hfill).step hcall).step hget
  · simp [σ₃, σ₂, RosterState.move]

/-- **A roster is fresh after an invalidation** in every run in which no fill was overtaken: a call
that comes after an `InvalidateGroup` of its group yields a roster that was listed after every
commit that preceded the invalidation, and is the roster the last commit it saw left. In every other
run a caller may be served a roster that is not. -/
theorem rosters_fresh [IsOrderedAddMonoid T] (ttl : T) (hpos : 0 < ttl) :
    (∀ σ, ((rosterSystem ttl).restrict Ordered).Reachable σ → ∀ c ∈ σ.calls, ∀ l,
      c.stage = .returned l → c.owed <:+ l.seen ∧ l.ids = l.seen.headD []) ∧
    ∀ σ i now now', (rosterSystem ttl).Reachable σ → ¬Ordered σ (.set i now now') →
      ∃ events σ', (rosterSystem ttl).Path σ events σ' ∧
        ∃ c ∈ σ'.calls, ∃ l, c.stage = .returned l ∧ ¬c.owed <:+ l.seen :=
  ⟨fun _ hσ c hc l hl ↦ (fresh_of_reachable hσ).yields c hc l (.inr hl),
    fun _ _ _ _ hσ hordered ↦ overtaken_fill_served hpos hσ hordered⟩

namespace MembersDemo

/-- One member is listed, a second one joins, the roster is invalidated and only then filled: the
next call, at the same instant, gets the old roster. -/
def overtakenFill : List (RosterEvent Int) :=
  [.commit "g" ["a"], .call "g", .get 0 0, .list 0 false, .commit "g" ["a", "b"], .invalidateGroup "g",
    .set 0 0 0, .call "g", .get 1 0]

/-- The same, filled before the invalidation. -/
def promptFill : List (RosterEvent Int) :=
  [.commit "g" ["a"], .call "g", .get 0 0, .list 0 false, .commit "g" ["a", "b"], .set 0 0 0,
    .invalidateGroup "g", .call "g", .get 1 0, .list 1 false, .set 1 0 0]

end MembersDemo

open MembersDemo in
theorem rosters_fresh_demo : ∃ σ c, ((rosterSystem (10 : Int)).restrict Ordered).Reachable σ ∧
    c ∈ σ.calls ∧ c.stage = .returned ⟨["a", "b"], [["a", "b"], ["a"]]⟩ ∧
    c.owed <:+ [["a", "b"], ["a"]] := by
  have hrun : (System.replay (fun σ e ↦ if Ordered σ e then RosterState.next σ e else none)
      { cache := ⟨(10 : Int), ∅⟩ } promptFill).map (fun σ ↦ σ.calls[1]?) =
      some (some ⟨"g", [["a", "b"], ["a"]], .returned ⟨["a", "b"], [["a", "b"], ["a"]]⟩⟩) := by decide
  obtain ⟨σ, hreplay, hcall⟩ := Option.map_eq_some_iff.1 hrun
  have hreach := System.reachable_restrict_of_replay hreplay
  have hmem := List.mem_of_getElem? hcall
  exact ⟨σ, _, hreach, hmem, rfl, ((rosters_fresh (10 : Int) (by decide)).1 σ hreach _ hmem _ rfl).1⟩

open MembersDemo in
/-- Without that condition a call may get a roster from before the invalidation. -/
theorem stale_after_invalidation : ∃ σ, (rosterSystem (10 : Int)).Reachable σ ∧
    ∃ c ∈ σ.calls, ∃ l, c.stage = .returned l ∧ ¬c.owed <:+ l.seen := by
  have hrun : (System.replay RosterState.next { cache := ⟨(10 : Int), ∅⟩ } overtakenFill).map
      (fun σ ↦ σ.calls[1]?) =
      some (some ⟨"g", [["a", "b"], ["a"]], .returned ⟨["a"], [["a"]]⟩⟩) := by decide
  obtain ⟨σ, hreplay, hcall⟩ := Option.map_eq_some_iff.1 hrun
  exact ⟨σ, System.reachable_of_replay hreplay, _, List.mem_of_getElem? hcall, _, rfl, by decide⟩

end Nexo.Members
