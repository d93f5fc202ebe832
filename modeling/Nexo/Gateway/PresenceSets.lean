import Nexo.Gateway.PresenceInvariant

/-!
# Subscriptions come and go

The part of the structural invariant that is about the registry: a client's subscription is removed
when the client or the dispatcher is done, and a new set replaces the old one in place.

`setOnlineSubscriptions` is read in three parts, of which each keeps the invariant: the client is
given an object if it has none (`prepared`), the object leaves the maps under its old set and enters
them under the new one (`Replaced`), and it is marked, which puts it in the queue. In between it may
be active without being queued or in flight; `CoveredBut` says that no other is.
-/

namespace Nexo.Gateway

open Machine List Function Option Presence

namespace Presence

variable {L : Type} {p p' : Presence L} {c i : ℕ} {now : Int} {ids : List String}

/-! ### Removal -/

theorem Removed.core (hr : Removed p c i p') (j : ℕ) : (p'.subs j).client = (p.subs j).client ∧
    (p'.subs j).userIds = (p.subs j).userIds ∧ (p'.subs j).cancel = (p.subs j).cancel ∧
    ((p'.subs j).remark = true → (p.subs j).remark = true ∧ j ≠ i) := by
  rw [hr.subs]
  by_cases hj : j = i
  · subst hj
    simp
  · simp [hj]

theorem Removed.refs_eq (h : Registered p) (hr : Removed p c i p') :
    p'.refs = Presence.refCount p'.subs p'.active := by
  have hcount := hr.refCount
  rw [hr.refs, h.refs, ← hcount, add_sub_cancel_right]
  exact (refCount_congr fun _ j _ ↦ (hr.core j).2.1).symm

section Removal

variable (h : Scheduled p) (hi : p.onlineSub c = some i) (hr : Removed p c i p')

include h hi hr

/-- What is active afterwards was active before, and is another client's. -/
theorem Removed.active_iff (c' j : ℕ) :
    p'.active.lookup c' = some j ↔ p.active.lookup c' = some j ∧ c' ≠ c ∧ j ≠ i := by
  rw [hr.active]
  by_cases hc : c' = c
  · simp [hc]
  · rw [if_neg hc]
    refine ⟨fun hj ↦ ⟨hj, hc, fun heq ↦ hc ?_⟩, And.left⟩
    obtain ⟨-, hclient⟩ := h.current c i hi
    obtain ⟨-, hclient'⟩ := h.current c' j ((h.active c' j).1 hj).1
    rw [← hclient', heq, hclient]

theorem Removed.queued (j : ℕ) (hj : p'.due.Has j) : ∃ c, p'.active.lookup c = some j := by
  obtain ⟨hj, hne⟩ := (hr.has j).1 hj
  obtain ⟨c', hc'⟩ := h.queued j hj
  refine ⟨c', (hr.active_iff h hi c' j).2 ⟨hc', fun heq ↦ hne ?_, hne⟩⟩
  exact some.inj (((h.active c' j).1 hc').1.symm.trans (heq ▸ hi))

theorem Removed.marked (j : ℕ) (hj : (p'.subs j).remark = true) :
    ∃ c, p'.active.lookup c = some j := by
  obtain ⟨hj, hne⟩ := (hr.core j).2.2.2 hj
  obtain ⟨c', hc'⟩ := h.marked j hj
  refine ⟨c', (hr.active_iff h hi c' j).2 ⟨hc', fun heq ↦ hne ?_, hne⟩⟩
  exact some.inj (((h.active c' j).1 hc').1.symm.trans (heq ▸ hi))

/-- **`remove`** of a subscription that stops being current, when its client or the dispatcher is
done. -/
theorem Scheduled.dropped (hdone : p.done c = true ∨ p.stopped = true) :
    Scheduled { p' with onlineSub := update p.onlineSub c none } := by
  have hcore := hr.core
  have hactive := hr.active_iff h hi
  have hflight : inFlight { p' with onlineSub := update p.onlineSub c none } = p.inFlight := by
    rw [hr.frame]
    rfl
  have hfresh : p'.fresh = p.fresh := by rw [hr.frame]
  have hdone' : p'.done = p.done := by rw [hr.frame]
  have hstopped : p'.stopped = p.stopped := by rw [hr.frame]
  have hclosing : p'.closing = p.closing := by rw [hr.frame]
  refine ⟨⟨fun c' j hj ↦ ?_, fun j hj k hk heq ↦ ?_, fun j hj hd hs ↦ ?_, fun c' j ↦ ?_, fun id c' ↦ ?_,
    hr.noEmpty, fun j ↦ ?_, (hr.refs_eq h.toRegistered :), ?_⟩, hr.heap,
    fun j hj ↦ hr.queued h hi j hj, fun j ↦ ?_, ?_, ?_, fun j hj ↦ ?_, fun j hj ↦ hr.marked h hi j hj, fun j hj ↦ ?_, ?_, ?_⟩
  · by_cases hc : c' = c
    · simp [hc] at hj
    · simp only [update_of_ne hc] at hj
      rw [hfresh, (hcore j).1]
      exact h.current c' j hj
  · rw [(hcore j).1, (hcore k).1] at heq
    exact h.owner j (hfresh ▸ hj) k (hfresh ▸ hk) heq
  · simp only [(hcore j).1, hdone', hstopped] at hd hs ⊢
    have hne : (p.subs j).client ≠ c := fun heq ↦ by
      rw [heq] at hd
      simp [hd, hs] at hdone
    rw [update_of_ne hne]
    exact h.live j (hfresh ▸ hj) hd hs
  · rw [hactive, (hcore j).2.1]
    by_cases hc : c' = c
    · simp [hc]
    · simp only [update_of_ne hc]
      rw [← h.active]
      exact ⟨And.left, fun hj ↦ ((hactive c' j).1 (by rw [hr.active, if_neg hc, hj]))⟩
  · rw [hr.watchers, Finset.mem_erase, h.watched]
    constructor
    · rintro ⟨hc, j, hj, hid⟩
      exact ⟨j, by rw [hr.active, if_neg hc, hj], (hcore j).2.1.symm ▸ hid⟩
    · rintro ⟨j, hj, hid⟩
      obtain ⟨hj, hc, -⟩ := (hactive c' j).1 hj
      exact ⟨hc, j, hj, (hcore j).2.1 ▸ hid⟩
  · rw [(hcore j).2.1]
    exact h.ids j
  · have hcap := h.cap
    show p'.refs ≤ _
    rw [hr.refs]
    omega
  · rw [hflight, (hcore j).2.2.1]
    exact h.flight j
  · exact hflight ▸ h.nodup
  · rw [hflight]
    exact hfresh ▸ h.alloc
  · rw [(hcore j).1, (hcore j).2.2.1, hdone', hclosing]
    exact h.remark j ((hcore j).2.2.2 hj).1
  · rw [(hcore j).2.2.1]
    exact h.apart j ((hr.has j).1 hj).1
  · rw [hflight, show p'.reads = p.reads by rw [hr.frame]]
    exact h.reads
  · exact hflight ▸ h.slots

theorem Removed.covered (hc : Covered p) :
    Covered { p' with onlineSub := update p.onlineSub c none } := by
  intro c' j hj hd hclosing hs
  simp only at hj hd hclosing hs ⊢
  obtain ⟨hj, -, hne⟩ := (hr.active_iff h hi c' j).1 hj
  rw [hr.frame] at hd hclosing hs
  rw [hr.has, (hr.core j).2.2.1]
  exact (hc c' j hj hd hclosing hs).imp_left fun hhas ↦ ⟨hhas, hne⟩

end Removal

/-! ### Subscriptions -/

/-- **What a new set does** to the subscription `i` of client `c`, before it is marked. -/
structure Replaced (p : Presence L) (c i : ℕ) (revision : Int) (ids : List String)
    (p' : Presence L) : Prop where
  heap : p'.due.Ok (key p'.subs)
  has : ∀ j, p'.due.Has j ↔ p.due.Has j ∧ j ≠ i
  other : ∀ j, j ≠ i → p'.subs j = p.subs j
  self : p'.subs i = { p.subs i with remark := false, revision, userIds := ids, lastSuccess := 0 }
  active : ∀ c', p'.active.lookup c' =
    if c' = c then (if ids = [] then none else some i) else p.active.lookup c'
  watchers : ∀ id c', c' ∈ watchers p'.byUser id ↔
    c' = c ∧ id ∈ ids ∨ c' ≠ c ∧ c' ∈ Presence.watchers p.byUser id
  noEmpty : NoEmpty p'.byUser
  refs : p'.refs = p.refs - (p.subs i).userIds.length + ids.length
  refCount : p'.refs = refCount p'.subs p'.active
  frame : p' = { p with
    subs := p'.subs, due := p'.due, active := p'.active, refs := p'.refs, byUser := p'.byUser }

theorem Removed.replace (h : Scheduled p) (hi : p.onlineSub c = some i) (hr : Removed p c i p')
    (revision : Int) (ids : List String) :
    Replaced p c i revision ids (if ids = [] then p'.replace c i revision ids
      else (p'.replace c i revision ids).register c i ids) := by
  have hother (j : ℕ) (hj : j ≠ i) : (p'.replace c i revision ids).subs j = p.subs j := by
    simp [Presence.replace, write, hr.subs, hj]
  have hself : (p'.replace c i revision ids).subs i =
      { p.subs i with remark := false, revision, userIds := ids, lastSuccess := 0 } := by
    simp [Presence.replace, write, hr.subs]
  have hheap : p'.due.Ok (key (p'.replace c i revision ids).subs) := by
    refine hr.heap.congr fun j hj ↦ ?_
    have hne := ((hr.has j).1 hj).2
    rw [key, key, hother j hne, hr.subs, update_of_ne hne]
  have hcount : p'.refs = Presence.refCount (p'.replace c i revision ids).subs p'.active := by
    rw [hr.refs_eq h.toRegistered]
    refine (refCount_congr fun c' j hj ↦ ?_).symm
    have hne := ((hr.active_iff h hi c' j).1 hj).2.2
    rw [hother j hne, hr.subs, update_of_ne hne]
  -- the client's subscription stays the one it was
  have hframe : p'.replace c i revision ids = { p with
      subs := (p'.replace c i revision ids).subs, due := p'.due, active := p'.active,
      refs := p'.refs, byUser := p'.byUser } := by
    have hsub : update p.onlineSub c (some i) = p.onlineSub :=
      update_eq_self_iff.2 hi.symm
    rw [Presence.replace, hr.frame]
    simp only [write, hsub]
  split
  next hnil =>
    subst hnil
    refine ⟨hheap, hr.has, hother, hself, fun c' ↦ ?_, fun id c' ↦ ?_, hr.noEmpty, ?_, hcount, hframe⟩
    · rw [if_pos rfl]
      exact hr.active c'
    · simp [Presence.replace, write, hr.watchers]
    · rw [length_nil, Nat.cast_zero, add_zero]
      exact hr.refs
  next hne =>
    refine ⟨hheap, hr.has, hother, hself, fun c' ↦ ?_, fun id c' ↦ ?_, ?_, ?_, ?_, ?_⟩
    · rw [if_neg hne]
      by_cases hc : c' = c
      · rw [if_pos hc, hc]
        exact AList.lookup_insert _
      · rw [if_neg hc]
        exact (AList.lookup_insert_ne hc).trans ((hr.active c').trans (if_neg hc))
    · change c' ∈ Presence.watchers (ids.foldl (Presence.watch c) p'.byUser) id ↔ _
      rw [watchers_watchAll, hr.watchers]
      by_cases hc : c' = c <;> by_cases hid : id ∈ ids <;> simp [hc, hid]
    · exact hr.noEmpty.foldl fun _ _ ↦ .watch
    · change p'.refs + _ = _
      rw [hr.refs]
    · change p'.refs + _ = Presence.refCount (p'.replace c i revision ids).subs (p'.active.insert c i)
      rw [refCount_insert ((hr.active c).trans (if_pos rfl)), hself, ← hcount]
    · rw [hframe]
      rfl

theorem Scheduled.replaced {revision : Int} (h : Scheduled p) (hi : p.onlineSub c = some i)
    (hids : ids.Nodup ∧ ids.length ≤ maxOnlineSubscriptions)
    (hcap : p.refs - (p.subs i).userIds.length + ids.length ≤ maxOnlineSubscriptionRefs)
    (hr : Replaced p c i revision ids p') : Scheduled p' := by
  obtain ⟨hlt, hclient⟩ := h.current c i hi
  have hfresh : p'.fresh = p.fresh := by rw [hr.frame]
  have hdone' : p'.done = p.done := by rw [hr.frame]
  have hstopped : p'.stopped = p.stopped := by rw [hr.frame]
  have hclosing : p'.closing = p.closing := by rw [hr.frame]
  have hsub : p'.onlineSub = p.onlineSub := by rw [hr.frame]
  have hflight : p'.inFlight = p.inFlight := by rw [hr.frame]; rfl
  have hcore (j : ℕ) : (p'.subs j).client = (p.subs j).client ∧
      (p'.subs j).cancel = (p.subs j).cancel := by
    by_cases hj : j = i
    · rw [hj, hr.self]
      exact ⟨rfl, rfl⟩
    · rw [hr.other j hj]
      exact ⟨rfl, rfl⟩
  -- other clients' subscriptions are other subscriptions
  have hneq {c' j : ℕ} (hj : p.onlineSub c' = some j) (hc : c' ≠ c) : j ≠ i := fun heq ↦
    hc ((h.current c' j hj).2.symm.trans (heq ▸ hclient))
  have hkeep {j : ℕ} (hj : ∃ c, p.active.lookup c = some j) (hne : j ≠ i) :
      ∃ c, p'.active.lookup c = some j := by
    obtain ⟨c', hc'⟩ := hj
    refine ⟨c', ?_⟩
    rw [hr.active, if_neg, hc']
    rintro rfl
    exact hne (some.inj (((h.active c' j).1 hc').1.symm.trans hi))
  refine ⟨⟨fun c' j hj ↦ ?_, fun j hj k hk heq ↦ ?_, fun j hj hd hs ↦ ?_, fun c' j ↦ ?_, fun id c' ↦ ?_,
    hr.noEmpty, fun j ↦ ?_, hr.refCount, ?_⟩, hr.heap, fun j hj ↦ ?_, fun j ↦ ?_, ?_, ?_, fun j hj ↦ ?_,
    fun j hj ↦ ?_, fun j hj ↦ ?_, ?_, ?_⟩
  · rw [hfresh, (hcore j).1]
    exact h.current c' j (hsub ▸ hj)
  · rw [(hcore j).1, (hcore k).1] at heq
    exact h.owner j (hfresh ▸ hj) k (hfresh ▸ hk) heq
  · rw [(hcore j).1] at hd ⊢
    rw [hsub]
    exact h.live j (hfresh ▸ hj) (hdone' ▸ hd) (hstopped ▸ hs)
  · rw [hr.active, hsub]
    by_cases hc : c' = c
    · subst hc
      rw [if_pos rfl, hi]
      by_cases hj : i = j
      · subst hj
        rw [hr.self]
        by_cases hnil : ids = [] <;> simp [hnil]
      · split <;> simp [hj]
    · rw [if_neg hc, h.active]
      refine and_congr_right fun hj ↦ ?_
      rw [hr.other j (hneq hj hc)]
  · rw [hr.watchers]
    by_cases hc : c' = c
    · subst hc
      simp only [hr.active, if_true, true_and, ne_eq, not_true, false_and, or_false]
      constructor
      · intro hid
        exact ⟨i, if_neg (ne_nil_of_mem hid), by rwa [hr.self]⟩
      · rintro ⟨j, hj, hid⟩
        split at hj
        · cases hj
        · cases hj
          rwa [hr.self] at hid
    · simp only [hr.active, hc, if_false, false_and, ne_eq, not_false_iff, true_and, false_or,
        h.watched]
      refine exists_congr fun j ↦ and_congr_right fun hj ↦ ?_
      rw [hr.other j (hneq ((h.active c' j).1 hj).1 hc)]
  · by_cases hj : j = i
    · rw [hj, hr.self]
      exact hids
    · rw [hr.other j hj]
      exact h.ids j
  · rw [hr.refs]
    exact hcap
  · obtain ⟨hj, hne⟩ := (hr.has j).1 hj
    exact hkeep (h.queued j hj) hne
  · rw [hflight, (hcore j).2]
    exact h.flight j
  · exact hflight ▸ h.nodup
  · rw [hflight, hfresh]
    exact h.alloc
  · by_cases hji : j = i
    · rw [hji, hr.self] at hj
      cases hj
    · rw [hr.other j hji] at hj ⊢
      rw [hdone', hclosing]
      exact h.remark j hj
  · by_cases hji : j = i
    · rw [hji, hr.self] at hj
      cases hj
    · rw [hr.other j hji] at hj
      exact hkeep (h.marked j hj) hji
  · rw [(hcore j).2]
    exact h.apart j ((hr.has j).1 hj).1
  · rw [hflight, show p'.reads = p.reads by rw [hr.frame]]
    exact h.reads
  · exact hflight ▸ h.slots

theorem Replaced.coveredBut {revision : Int} (hr : Replaced p c i revision ids p') (h : Covered p) :
    CoveredBut p' i := by
  intro c' j hji hj hd hc hs
  rw [hr.frame] at hd hc hs
  rw [hr.active] at hj
  split at hj
  · split at hj
    · cases hj
    · exact absurd (some.inj hj).symm hji
  · rw [hr.has, hr.other j hji]
    exact (h c' j hj hd hc hs).imp_left fun hhas ↦ ⟨hhas, hji⟩

/-! ### The client's object -/

theorem Registered.lt_fresh (h : Registered p) (hi : p.active.lookup c = some i) : i < p.fresh :=
  (h.current c i ((h.active c i).1 hi).1).1

/-- The scheduler once client `c` has an object, which is new if it had none. -/
def prepared (p : Presence L) (c : ℕ) : Presence L :=
  if (p.onlineSub c).isSome then p
  else { p.write p.fresh { client := c } with
    fresh := p.fresh + 1, onlineSub := Function.update p.onlineSub c (some p.fresh) }

theorem prepared_of_some (hi : p.onlineSub c = some i) : p.prepared c = p := by
  simp [prepared, hi]

theorem prepared_of_none (hc : p.onlineSub c = none) : p.prepared c =
    { p.write p.fresh { client := c } with
      fresh := p.fresh + 1, onlineSub := update p.onlineSub c (some p.fresh) } := by
  simp [prepared, hc]

/-- A new object is nobody's. -/
theorem Scheduled.prepared (h : Scheduled p) (hd : p.done c = false) (hs : p.stopped = false) :
    Scheduled (p.prepared c) := by
  rcases hc : p.onlineSub c with - | i
  swap
  · rwa [prepared_of_some hc]
  rw [prepared_of_none hc]
  have hold {j : ℕ} (hj : j ≠ p.fresh) : (p.write p.fresh { client := c }).subs j = p.subs j :=
    write_subs_of_ne hj
  have hnew := write_subs_self p p.fresh { client := c }
  have hne {c' j : ℕ} (hj : p.active.lookup c' = some j) : j ≠ p.fresh := (h.lt_fresh hj).ne
  have hflight {j : ℕ} (hj : j ∈ p.inFlight) : j ≠ p.fresh := (h.alloc j hj).ne
  -- an object of a client that is not done would be its current one
  have hother {j : ℕ} (hj : j < p.fresh) : (p.subs j).client ≠ c := fun heq ↦ by
    have hlive := h.live j hj (heq ▸ hd) hs
    rw [heq, hc] at hlive
    cases hlive
  refine ⟨⟨fun c' j hj ↦ ?_, fun j hj k hk heq ↦ ?_, fun j hj hd hs ↦ ?_, fun c' j ↦ ?_,
    fun id c' ↦ ?_, h.noEmpty, fun j ↦ ?_, ?_, h.cap⟩, ?_, h.queued, fun j ↦ ?_, h.nodup,
    fun j hj ↦ (h.alloc j hj).trans (Nat.lt_succ_self _), fun j hj ↦ ?_, fun j hj ↦ ?_,
    fun j hj ↦ ?_, h.reads, h.slots⟩
  · by_cases hc' : c' = c
    · simp only [hc', update_self, some.injEq] at hj ⊢
      rw [← hj, hnew]
      exact ⟨Nat.lt_succ_self _, rfl⟩
    · simp only [update_of_ne hc'] at hj
      obtain ⟨hlt, hclient⟩ := h.current c' j hj
      exact ⟨hlt.trans (Nat.lt_succ_self _), by rw [← hclient, hold hlt.ne]⟩
  · simp only at hj hk heq
    rcases Nat.lt_succ_iff_lt_or_eq.1 hj with hj | rfl <;>
      rcases Nat.lt_succ_iff_lt_or_eq.1 hk with hk | rfl
    · rw [hold hj.ne, hold hk.ne] at heq
      exact h.owner j hj k hk heq
    · rw [hold hj.ne, hnew] at heq
      exact absurd heq (hother hj)
    · rw [hold hk.ne, hnew] at heq
      exact absurd heq.symm (hother hk)
    · rfl
  · simp only at hj hd hs ⊢
    rcases Nat.lt_succ_iff_lt_or_eq.1 hj with hj | rfl
    · rw [hold hj.ne] at hd ⊢
      rw [update_of_ne (hother hj)]
      exact h.live j hj hd hs
    · rw [hnew, update_self]
  · simp only
    constructor
    · intro hj
      obtain ⟨hsub, hids⟩ := (h.active c' j).1 hj
      have hc' : c' ≠ c := fun heq ↦ by
        rw [heq, hc] at hsub
        cases hsub
      rw [update_of_ne hc', hold (hne hj)]
      exact ⟨hsub, hids⟩
    · rintro ⟨hsub, hids⟩
      by_cases hj : j = p.fresh
      · rw [hj, hnew] at hids
        exact absurd rfl hids
      · have hc' : c' ≠ c := fun heq ↦ by
          rw [heq, update_self] at hsub
          exact hj (some.inj hsub).symm
        rw [update_of_ne hc'] at hsub
        rw [hold hj] at hids
        exact (h.active c' j).2 ⟨hsub, hids⟩
  · refine (h.watched id c').trans (exists_congr fun j ↦ and_congr_right fun hj ↦ ?_)
    rw [← hold (hne hj)]
  · by_cases hj : j = p.fresh
    · rw [hj, hnew]
      exact ⟨nodup_nil, Nat.zero_le _⟩
    · rw [hold hj]
      exact h.ids j
  · exact h.refs.trans (refCount_congr fun _ j hj ↦ by rw [← hold (hne hj)]).symm
  · refine h.heap.congr fun j hj ↦ ?_
    obtain ⟨c', hc'⟩ := h.queued j hj
    rw [key, key, hold (hne hc')]
  · by_cases hj : j = p.fresh
    · rw [hj, hnew]
      exact ⟨fun h ↦ (by cases h), fun hmem ↦ absurd rfl (hflight hmem)⟩
    · rw [hold hj]
      exact h.flight j
  · by_cases hjf : j = p.fresh
    · rw [hjf, hnew] at hj
      cases hj
    · rw [hold hjf] at hj ⊢
      exact h.remark j hj
  · by_cases hjf : j = p.fresh
    · rw [hjf, hnew] at hj
      cases hj
    · rw [hold hjf] at hj
      exact h.marked j hj
  · obtain ⟨c', hc'⟩ := h.queued j hj
    rw [hold (hne hc')]
    exact h.apart j hj

theorem prepared_frame (c : ℕ) : p.prepared c = { p with
    subs := (p.prepared c).subs, fresh := (p.prepared c).fresh,
    onlineSub := (p.prepared c).onlineSub } := by
  rw [prepared]
  split <;> rfl

/-- Older objects stay as they are. -/
theorem prepared_subs (hi : i < p.fresh) : (p.prepared c).subs i = p.subs i := by
  rw [prepared]
  split
  · rfl
  · exact write_subs_of_ne hi.ne

theorem Sound.prepared (h : Sound p) (hd : p.done c = false) (hs : p.stopped = false) :
    Sound (p.prepared c) := by
  refine ⟨h.toScheduled.prepared hd hs, fun c' j hj hd' hc' hs' ↦ ?_, fun hs' ↦ ?_⟩
  · rw [prepared_frame c] at hj hd' hc' hs'
    rw [prepared_subs (h.lt_fresh hj), prepared_frame c]
    exact h.covered c' j hj hd' hc' hs'
  · rw [prepared_frame c] at hs'
    cases hs.symm.trans hs'

/-! ### Requests -/

/-- Neighbours differ, so a sorted list without them increases strictly. -/
theorem pairwise_sortCompact (ids : List String) : (sortCompact ids).Pairwise (· < ·) := by
  have hle : (sortCompact ids).Pairwise (· ≤ ·) :=
    (pairwise_insertionSort (· ≤ ·) ids).sublist (destutter_sublist _ _)
  refine (isChain_iff_getElem.2 fun i hi ↦ ?_ : (sortCompact ids).IsChain (· < ·)).pairwise
  exact lt_of_le_of_ne (isChain_iff_getElem.1 hle.isChain i hi)
    (isChain_iff_getElem.1 (isChain_destutter _ _) i hi)

theorem nodup_sortCompact (ids : List String) : (sortCompact ids).Nodup :=
  (pairwise_sortCompact ids).imp ne_of_lt

theorem mem_sortCompact {id : String} : id ∈ sortCompact ids ↔ id ∈ ids := by
  have hdedup : sortCompact ids = (ids.insertionSort (· ≤ ·)).dedup :=
    (pairwise_insertionSort (· ≤ ·) ids).destutter_eq_dedup
  rw [hdedup, mem_dedup, mem_insertionSort]

theorem length_sortCompact_le (ids : List String) : (sortCompact ids).length ≤ ids.length := by
  refine (destutter_sublist _ _).length_le.trans_eq ?_
  exact length_insertionSort _ ids

/-- `remove` does not look at the clients' fields. -/
theorem remove_onlineSub (p : Presence L) (i : ℕ) (f : ℕ → Option ℕ) :
    remove { p with onlineSub := f } i = { p.remove i with onlineSub := f } ∧
      (p.remove i).onlineSub = p.onlineSub := by
  simp only [remove, unregister, unmark, write]
  split <;> exact ⟨rfl, rfl⟩

theorem prepared_onlineSub (c : ℕ) :
    (p.prepared c).onlineSub c = some ((p.onlineSub c).getD p.fresh) := by
  rcases hc : p.onlineSub c with - | i
  · simp [prepared_of_none hc]
  · simp [prepared_of_some hc, hc]

theorem prepared_sub (c : ℕ) :
    (if (p.onlineSub c).isSome then p.subs ((p.onlineSub c).getD p.fresh) else { client := c }) =
      (p.prepared c).subs ((p.onlineSub c).getD p.fresh) := by
  rcases hc : p.onlineSub c with - | i
  · simp [prepared_of_none hc, write]
  · simp [prepared_of_some hc]

/-- It makes no difference whether a new object is the client's before it is filled or after. -/
theorem subscribe_prepared (c : ℕ) (revision : Int) (ids : List String) (now : Int) :
    subscribe { p.write ((p.onlineSub c).getD p.fresh)
        ((p.prepared c).subs ((p.onlineSub c).getD p.fresh)) with
      fresh := if (p.onlineSub c).isSome then p.fresh else p.fresh + 1 }
        c ((p.onlineSub c).getD p.fresh) revision ids now =
      (p.prepared c).subscribe c ((p.onlineSub c).getD p.fresh) revision ids now := by
  rcases hc : p.onlineSub c with - | i
  · have hsub (q : Presence L) (i : ℕ) :
        subscribe { q with onlineSub := update q.onlineSub c (some i) } c i revision ids now =
          q.subscribe c i revision ids now := by
      obtain ⟨hremove, hold⟩ := remove_onlineSub q i (update q.onlineSub c (some i))
      simp only [subscribe, hremove, replace, write, update_idem, hold]
    rw [prepared_of_none hc]
    simp only [getD_none, isSome_none, write_subs_self]
    exact (hsub _ _).symm
  · simp [prepared_of_some hc, write]

/-- **What an accepted request with a new revision does.** -/
structure Accepted (p : Presence L) (c : ℕ) (req : SubscriptionRequest) (now : Int) (i : ℕ)
    (p' : Presence L) : Prop where
  stopped : p.stopped = false
  closing : p.closing = false
  done : p.done c = false
  sub : (p.prepared c).onlineSub c = some i
  revision : ((p.prepared c).subs i).revision < req.revision
  length : req.userIds.length ≤ maxOnlineSubscriptions
  cap : p.refs - ((p.prepared c).subs i).userIds.length + (sortCompact req.userIds).length ≤
    maxOnlineSubscriptionRefs
  eq : p' = (p.prepared c).subscribe c i req.revision (sortCompact req.userIds) now

/-- **`setOnlineSubscriptions`** leaves the scheduler as it is, or answers no error to a request
with a new revision. -/
theorem setOnlineSubscriptions_cases (env : OnlineEnv L) (p : Presence L) (c : ℕ)
    (req : SubscriptionRequest) (now : Int) :
    (p.setOnlineSubscriptions env c req now).2 = p ∨
      (p.setOnlineSubscriptions env c req now).1.2 = none ∧
        ∃ i, Accepted p c req now i (p.setOnlineSubscriptions env c req now).2 := by
  generalize hr : p.setOnlineSubscriptions env c req now = r
  rw [setOnlineSubscriptions] at hr
  split at hr
  · exact .inl (hr ▸ rfl)
  split at hr
  · exact .inl (hr ▸ rfl)
  next hreq =>
  split at hr
  · exact .inl (hr ▸ rfl)
  split at hr
  · exact .inl (hr ▸ rfl)
  next hlive =>
  split at hr
  · exact .inl (hr ▸ rfl)
  next hdone =>
  dsimp only at hr
  rw [prepared_sub] at hr
  split at hr
  · exact .inl (hr ▸ rfl)
  next hold =>
  split at hr
  · split at hr <;> exact .inl (hr ▸ rfl)
  next hsame =>
  split at hr
  · exact .inl (hr ▸ rfl)
  next hcap =>
  subst hr
  simp only [not_or, Bool.not_eq_true] at hlive hdone hreq
  refine .inr ⟨rfl, _, hlive.1, hlive.2, hdone, prepared_onlineSub c, ?_, ?_, ?_,
    subscribe_prepared c _ _ now⟩
  · omega
  · exact Nat.le_of_not_lt hreq.2
  · exact Int.not_lt.1 hcap

theorem Accepted.replaced {req : SubscriptionRequest} (h : Sound p) (ha : Accepted p c req now i p') :
    ∃ q, Replaced (p.prepared c) c i req.revision (sortCompact req.userIds) q ∧
      p' = if sortCompact req.userIds = [] then q else q.mark (some i) now := by
  have hq := h.prepared ha.done ha.stopped
  refine ⟨_, (removed hq.toRegistered hq.heap ha.sub).replace hq.toScheduled ha.sub req.revision
    (sortCompact req.userIds), ?_⟩
  rw [ha.eq, subscribe]
  split <;> rfl

theorem Accepted.sound {req : SubscriptionRequest} (h : Sound p) (ha : Accepted p c req now i p') :
    Sound p' := by
  obtain ⟨q, hr, rfl⟩ := ha.replaced h
  have hp := h.prepared ha.done ha.stopped
  have hcap := ha.cap
  rw [show p.refs = (p.prepared c).refs by rw [prepared_frame c]] at hcap
  have hq := hp.toScheduled.replaced ha.sub
    ⟨nodup_sortCompact _, (length_sortCompact_le _).trans ha.length⟩ hcap hr
  have hhalted : Halted q := fun hs ↦ by
    rw [hr.frame, prepared_frame c] at hs
    cases ha.stopped.symm.trans hs
  have hcovered := hr.coveredBut hp.covered
  split
  next hnil =>
    -- with an empty set the client has nothing active
    refine ⟨hq, fun c' j hj ↦ hcovered c' j ?_ hj, hhalted⟩
    rintro rfl
    rw [hq.active, hr.self] at hj
    exact hj.2 hnil
  next hne =>
    have hi : q.active.lookup c = some i := by rw [hr.active, if_pos rfl, if_neg hne]
    refine ⟨hq.mark hi now, hcovered.mark hq.heap now, ?_⟩
    rw [Halted, mark_frame hq.heap]
    exact hhalted

/-! ### The way out -/

theorem Sound.removeOnlineSubscriptions (h : Sound p) (hd : p.done c = true) :
    Sound (p.removeOnlineSubscriptions c) := by
  rw [Presence.removeOnlineSubscriptions]
  split
  · exact h
  next i hi =>
  have hr := removed h.toRegistered h.heap hi
  refine ⟨h.toScheduled.dropped hi hr (.inl hd), hr.covered h.toScheduled hi h.covered,
    fun hs c' ↦ ?_⟩
  simp only at hs
  rw [hr.frame] at hs
  rw [hr.active, h.halted hs]
  exact ite_self none

theorem Scheduled.drop (h : Scheduled p) (hs : p.stopped = true) (c : ℕ) :
    Scheduled (p.drop c) ∧ (p.drop c).stopped = true ∧
      ∀ c', (p.drop c).active.lookup c' = if c' = c then none else p.active.lookup c' := by
  rw [Presence.drop]
  split
  next hnone =>
    refine ⟨h, hs, fun c' ↦ ?_⟩
    split
    next heq => rw [heq, hnone]
    next => rfl
  next i hi =>
    have hi' := ((h.active c i).1 hi).1
    have hr := removed h.toRegistered h.heap hi'
    refine ⟨h.dropped hi' hr (.inr hs), ?_, hr.active⟩
    rw [hr.frame]
    exact hs

theorem Scheduled.dropAll (h : Scheduled p) (hs : p.stopped = true) (order : List ℕ) :
    Scheduled (order.foldl Presence.drop p) ∧ (order.foldl Presence.drop p).stopped = true ∧
      ∀ c, (order.foldl Presence.drop p).active.lookup c =
        if c ∈ order then none else p.active.lookup c := by
  induction order generalizing p with
  | nil => exact ⟨h, hs, fun _ ↦ (if_neg not_mem_nil).symm⟩
  | cons c order ih =>
    obtain ⟨hd, hs', hactive⟩ := h.drop hs c
    obtain ⟨hd', hs'', hactive'⟩ := ih hd hs'
    refine ⟨hd', hs'', fun c' ↦ ?_⟩
    rw [foldl_cons, hactive', hactive]
    by_cases hc : c' = c <;> by_cases ho : c' ∈ order <;> simp [hc, ho]

theorem Scheduled.stopping (h : Scheduled p) : Scheduled { p with stopped := true } :=
  ⟨h.toRegistered.congr rfl rfl rfl rfl rfl (fun _ ↦ id) nofun fun _ ↦ ⟨rfl, rfl⟩, h.heap, h.queued,
    h.flight, h.nodup, h.alloc, h.remark, h.marked, h.apart, h.reads, h.slots⟩

/-- **The dispatcher's exit** leaves nothing active. -/
theorem Sound.stop (h : Sound p) {order : List ℕ} (horder : order.Perm p.active.keys) :
    Sound (p.stop order) := by
  obtain ⟨hs, hstopped, hactive⟩ := h.toScheduled.stopping.dropAll rfl order
  refine ⟨hs, fun c i _ _ _ hfalse ↦ ?_, fun _ c ↦ (hactive c).trans ?_⟩
  · cases hstopped.symm.trans hfalse
  · split
    · rfl
    next hc => exact AList.lookup_eq_none.2 fun hmem ↦ hc (horder.mem_iff.2 hmem)

/-! ### Steps outside the lock -/

/-- Contexts are cancelled and the node closes. -/
theorem Sound.expire (h : Sound p)
    (hframe : p' = { p with done := p'.done, closing := p'.closing })
    (hdone : ∀ c, p.done c = true → p'.done c = true)
    (hclosing : p.closing = true → p'.closing = true) : Sound p' := by
  have hdone' (c : ℕ) (hc : p'.done c = false) : p.done c = false :=
    Bool.eq_false_iff.2 fun ht ↦ by simp [hdone c ht] at hc
  have hclosing' (hc : p'.closing = false) : p.closing = false :=
    Bool.eq_false_iff.2 fun ht ↦ by simp [hclosing ht] at hc
  have hr : Registered p' := h.toRegistered.congr (by rw [hframe]) (by rw [hframe]) (by rw [hframe])
    (by rw [hframe]) (by rw [hframe]) hdone' (fun hs ↦ by rwa [hframe] at hs)
    fun i ↦ by rw [hframe]; exact ⟨rfl, rfl⟩
  rw [hframe] at hr ⊢
  refine ⟨⟨hr, h.heap, h.queued, h.flight, h.nodup, h.alloc, fun i hi ↦ ?_, h.marked, h.apart, h.reads,
    h.slots⟩, fun c i hi hd hc hs ↦ ?_, h.halted⟩
  · exact (h.remark i hi).imp_right (Or.imp (hdone _) hclosing)
  · exact h.covered c i hi (hdone' c hd) (hclosing' hc) hs

/-- A worker receives a job. -/
theorem Sound.take (h : Sound p) {job : OnlineRead} {jobs : List OnlineRead}
    (hjobs : p.jobs = job :: jobs) :
    Sound { p with jobs, running := p.running ++ [job] } := by
  have hflight : (inFlight { p with jobs, running := p.running ++ [job] }).Perm p.inFlight := by
    refine List.Perm.map _ ?_
    rw [hjobs, ← append_assoc]
    exact perm_append_singleton job _
  refine ⟨⟨h.toRegistered.congr rfl rfl rfl rfl rfl (fun _ ↦ id) id fun _ ↦ ⟨rfl, rfl⟩, h.heap,
    h.queued, fun i ↦ ?_, hflight.nodup_iff.2 h.nodup, fun i hi ↦ h.alloc i (hflight.mem_iff.1 hi),
    h.remark, h.marked, h.apart, ?_, hflight.length_eq ▸ h.slots⟩, h.covered, h.halted⟩
  · exact (h.flight i).trans hflight.mem_iff.symm
  · exact h.reads.trans (by rw [hflight.length_eq])

end Presence

end Nexo.Gateway
