import Nexo.Gateway.Lifecycle

/-!
# Who owns a slot

The accounting behind the slots. Of one connection, at most one party owns the slot: a party that
won the claim and is about to give it back, the callback between its claim and `Adopt`, or the
registered client; and once it is given back nobody does. In numbers, the owners and the times it
was given back add up to one exactly when the reservation is settled (`Conn.Ok.owner`).

Of the whole node, a move does one of five things to the registry (`Moved`), and the counters count
the connections whose slot is outstanding (`Accounted`).
-/

namespace Nexo.Gateway

open Machine List

namespace Conn

/-- Reserved, and not given back. -/
def outstanding (c : Conn) : Bool := c.reserved && c.given = 0

/-- The parties that own the slot, and the times it was given back. -/
def holders (c : Conn) : ℕ :=
  (decide (c.handle = .earlyRelease ∨ c.handle = .errRelease)).toNat +
    (decide (c.watcher = .release)).toNat + (decide (c.callback = .claimed)).toNat +
    c.registered.toNat + c.given

/-- `Handle` has not called `Upgrade`. -/
def early (c : Conn) : Prop :=
  c.handle = .start ∨ c.handle = .rejected ∨ c.handle = .watch ∨ c.handle = .begin_ ∨
    c.handle = .earlyClaim ∨ c.handle = .earlyRelease ∨ c.handle = .check ∨ c.handle = .upgrade

/-- `Handle` has not come out of `watchUpgrade`. -/
def unwatched (c : Conn) : Prop :=
  c.handle = .start ∨ c.handle = .rejected ∨ c.handle = .watch ∨ c.handle = .begin_ ∨
    c.handle = .earlyClaim

/-- **What holds of one connection.** -/
structure Ok (c : Conn) : Prop where
  owner : c.holders = c.settled.toNat
  /-- nobody settles before `watchUpgrade` -/
  unwatched : c.unwatched → c.watcher = .none ∧ c.settled = false
  /-- afterwards a watcher looks after an unsettled reservation -/
  watched : ¬ c.unwatched → c.watcher = .none ∨ c.watcher = .exited → c.settled = true
  early : c.early → c.callback = .idle
  client : c.close = .none ↔ c.callback = .idle ∨ c.callback = .pending ∨ c.callback = .refused
  /-- when the callback won the claim, nobody else did -/
  won : c.callback = .claimed ∨ c.callback = .adopted ∨ c.callback = .failed → c.settled = true ∧
    c.handle ≠ .earlyRelease ∧ c.handle ≠ .errRelease ∧ c.watcher ≠ .release

theorem ok_new (slot : Slot) : ({ slot } : Conn).Ok := by
  refine ⟨rfl, fun _ ↦ ⟨rfl, rfl⟩, fun h ↦ absurd (.inl rfl) h, fun _ ↦ rfl, ?_, ?_⟩ <;> simp

end Conn

/-- **What a move does** to the slot of its connection and to the registry. -/
inductive Moved (s : State) (i : ℕ) (c c' : Conn) : UserMap → Prop
  | frame (hout : c'.outstanding = c.outstanding) (hreg : c'.registered = c.registered) :
      Moved s i c c' s.users
  | reserve {users : UserMap} (hok : s.users.reserve c.slot = .ok users)
      (hout : c.outstanding = false) (hout' : c'.outstanding = true)
      (hreg : c'.registered = c.registered) : Moved s i c c' users
  | release (hout : c.outstanding = true) (hout' : c'.outstanding = false)
      (hreg : c'.registered = c.registered) : Moved s i c c' (s.users.release c.slot)
  | adopt {users : UserMap} (hok : s.users.adopt i c.slot c.closedChan = (none, users))
      (hout : c'.outstanding = c.outstanding) (hreg : c.registered = false)
      (hreg' : c'.registered = true) : Moved s i c c' users
  | unregister (hout : c.outstanding = true) (hout' : c'.outstanding = false)
      (hreg : c.registered = true) (hreg' : c'.registered = false) :
      Moved s i c c' (s.users.unregister i c.slot)

namespace Conn

section Move

variable {s : State} {i : ℕ} {c c' : Conn} {users : UserMap}

attribute [local simp] holders registered reserved outstanding Conn.unwatched Conn.early

section

variable (h : c.Ok)
include h

theorem Ok.handleNext {ok : Bool} (hnext : c.handleNext s ok = some (c', users)) :
    c'.Ok ∧ c'.slot = c.slot ∧ Moved s i c c' users := by
  obtain ⟨howner, hun, hwatched, hearly, hclient, hwon⟩ := h
  rcases c with ⟨slot, handle, watcher, callback, close, settled, given⟩
  cases handle <;> simp only [Conn.handleNext, claim] at hnext
  case rejected | finished => cases hnext
  case start =>
    split at hnext <;> cases hnext
    · refine ⟨⟨?_, ?_, ?_, ?_, hclient, ?_⟩, rfl, .frame ?_ ?_⟩ <;> simp_all
    · refine ⟨⟨?_, ?_, ?_, ?_, hclient, ?_⟩, rfl, .reserve (by assumption) ?_ ?_ ?_⟩ <;> simp_all
  case begin_ =>
    split at hnext <;> cases hnext <;>
      refine ⟨⟨?_, ?_, ?_, ?_, hclient, ?_⟩, rfl, .frame ?_ ?_⟩ <;> simp_all
  case earlyRelease | errRelease =>
    -- whoever is about to give the slot back owns it
    cases hnext
    refine ⟨⟨?_, ?_, ?_, ?_, hclient, ?_⟩, rfl, .release ?_ ?_ ?_⟩ <;> cases settled <;> simp_all <;> omega
  case earlyClaim | errClaim =>
    cases settled <;> cases hnext <;>
      refine ⟨⟨?_, ?_, ?_, ?_, hclient, ?_⟩, rfl, .frame ?_ ?_⟩ <;> simp_all
  case watch | check | upgrading =>
    cases hnext
    refine ⟨⟨?_, ?_, ?_, ?_, hclient, ?_⟩, rfl, .frame ?_ ?_⟩ <;> cases settled <;> simp_all <;>
      (split <;> simp_all)
  case upgrade =>
    cases hnext
    refine ⟨⟨?_, ?_, ?_, ?_, ?_, ?_⟩, rfl, .frame ?_ ?_⟩ <;> simp_all

theorem Ok.watcherNext {woken : Bool}
    (hnext : c.watcherNext s woken = some (c', users)) :
    c'.Ok ∧ c'.slot = c.slot ∧ Moved s i c c' users := by
  obtain ⟨howner, hun, hwatched, hearly, hclient, hwon⟩ := h
  rcases c with ⟨slot, handle, watcher, callback, close, settled, given⟩
  cases watcher <;> simp only [Conn.watcherNext, claim] at hnext
  case none | exited => cases hnext
  case waiting =>
    repeat' split at hnext
    all_goals cases hnext
    all_goals refine ⟨⟨?_, ?_, ?_, hearly, hclient, ?_⟩, rfl, .frame ?_ ?_⟩ <;> simp_all
  case claim =>
    cases settled <;> cases hnext <;>
      refine ⟨⟨?_, ?_, ?_, hearly, hclient, ?_⟩, rfl, .frame ?_ ?_⟩ <;> simp_all
  case release =>
    cases hnext
    have hne : handle ≠ .start ∧ handle ≠ .rejected := by
      constructor <;> rintro rfl <;> simp_all
    refine ⟨⟨?_, ?_, ?_, hearly, hclient, ?_⟩, rfl, .release ?_ ?_ ?_⟩ <;> cases settled <;> simp_all <;> omega

theorem Ok.callbackNext (hnext : c.callbackNext s i = some (c', users)) :
    c'.Ok ∧ c'.slot = c.slot ∧ Moved s i c c' users := by
  obtain ⟨howner, hun, hwatched, hearly, hclient, hwon⟩ := h
  rcases c with ⟨slot, handle, watcher, callback, close, settled, given⟩
  have hlate (hcb : callback ≠ .idle) : ¬ Conn.early ⟨slot, handle, watcher, callback, close,
    settled, given⟩ := fun he ↦ hcb (hearly he)
  cases callback <;> simp only [Conn.callbackNext, claim] at hnext
  case idle | refused | adopted | failed => cases hnext
  case pending =>
    cases settled <;> cases hnext <;>
      refine ⟨⟨?_, ?_, ?_, ?_, ?_, ?_⟩, rfl, .frame ?_ ?_⟩ <;> simp_all
  case claimed =>
    split at hnext <;> cases hnext
    next hadopt =>
      obtain ⟨hclosed, -, -⟩ := UserMap.adopt_eq_ok hadopt
      refine ⟨⟨?_, ?_, ?_, ?_, ?_, ?_⟩, rfl, .adopt hadopt ?_ ?_ ?_⟩ <;> simp_all [closedChan]
    next hadopt =>
      obtain rfl := UserMap.adopt_eq_error hadopt
      refine ⟨⟨?_, ?_, ?_, ?_, ?_, ?_⟩, rfl, .release ?_ ?_ ?_⟩ <;> cases settled <;> simp_all

theorem Ok.reserved_of_callback (hcb : c.callback ≠ .idle) : c.reserved = true := by
  have hearly : ¬ c.early := fun he ↦ hcb (h.early he)
  simp only [Conn.early, not_or] at hearly
  simp [hearly.1, hearly.2.1]

/-- A registered client has not given the slot back. -/
theorem Ok.given_of_registered (hreg : c.registered = true) : c.given = 0 := by
  have howner := h.owner
  have hle := Bool.toNat_le c.settled
  rw [holders, hreg, Bool.toNat_true] at howner
  omega

/-- Ownership does not depend on how far `close` has come, but for the client being there and
registered. -/
theorem Ok.setClose {close : ClosePc} (hclose : c.close ≠ .none) (hclose' : close ≠ .none)
    (hreg : Conn.registered { c with close } = c.registered) : Conn.Ok { c with close } where
  owner := by
    rw [← h.owner]
    exact congrArg (fun r : Bool ↦ _ + _ + _ + r.toNat + _) hreg
  unwatched := h.unwatched
  watched := h.watched
  early := h.early
  client := ⟨fun hnone ↦ absurd hnone hclose', fun hcb ↦ absurd (h.client.2 hcb) hclose⟩
  won := h.won

section

variable (hmem : i ∈ s.users.get c.slot.userId ↔ c.registered = true)
include hmem

theorem Ok.closeNext
    (hnext : c.closeNext s i = some (c', users)) :
    c'.Ok ∧ c'.slot = c.slot ∧ Moved s i c c' users := by
  unfold Conn.closeNext at hnext
  -- up to the end of `close`, the client stays registered or not
  have hframe : ∀ close : ClosePc, c.close ≠ .none → close ≠ .none →
      Conn.registered { c with close } = c.registered →
      Conn.Ok { c with close } ∧ c.slot = c.slot ∧ Moved s i c { c with close } s.users :=
    fun close hclose hclose' hreg ↦ ⟨h.setClose hclose hclose' hreg, rfl, .frame rfl hreg⟩
  cases hclose : c.close with
  | none | finished => simp [hclose] at hnext
  | opened | cancelled | marked | closed | unregistered =>
    rw [hclose] at hnext
    cases hnext
    exact hframe _ (by rw [hclose]; decide) (by decide) (by simp [hclose])
  | released =>
    rw [hclose] at hnext
    cases hnext
    by_cases hreg : c.registered = true
    · have hin : i ∈ s.users.get c.slot.userId := hmem.2 hreg
      have hcb : c.callback = .adopted := by simp_all
      have hgone : Conn.registered { c with close := .unregistered, given := c.given + 1 } = false := by
        simp
      have hgiven : c.given = 0 := h.given_of_registered hreg
      rw [if_pos hin]
      refine ⟨?_, rfl, .unregister ?_ ?_ hreg hgone⟩
      · refine ⟨?_, h.unwatched, h.watched, h.early, ?_, h.won⟩
        · rw [← h.owner, holders, holders, hgone, hreg, Bool.toNat_false, Bool.toNat_true]
          dsimp only
          omega
        · refine ⟨nofun, fun hnot ↦ ?_⟩
          rw [hcb] at hnot
          simp at hnot
      · rw [outstanding, h.reserved_of_callback (by rw [hcb]; decide), hgiven]
        rfl
      · rw [outstanding]
        simp
    · have hin : i ∉ s.users.get c.slot.userId := fun hin ↦ hreg (hmem.1 hin)
      have hreg' : Conn.registered { c with close := .unregistered } = c.registered := by
        rw [Bool.eq_false_iff.2 hreg]
        simp
      rw [if_neg hin, UserMap.unregister, if_neg hin]
      exact hframe _ (by rw [hclose]; decide) (by decide) hreg'

/-- **One move**: the ownership stays in order, and the registry changes in one of five ways. -/
theorem Ok.next {m : Move}
    (hnext : c.next s i m = some (c', users)) :
    c'.Ok ∧ c'.slot = c.slot ∧ Moved s i c c' users := by
  cases m with
  | handle ok => exact h.handleNext hnext
  | watcher woken => exact h.watcherNext hnext
  | callback => exact h.callbackNext hnext
  | close => exact h.closeNext hmem hnext

end

end

end Move

end Conn

/-! ### The node -/

/-- How many outstanding slots satisfy `p`. -/
def countSlots (conns : List Conn) (p : Slot → Bool) : ℕ :=
  tally (fun c : Conn ↦ (c.outstanding && p c.slot).toNat) conns

/-- **What holds of the node.** -/
structure Accounted (limits : Limits) (s : State) : Prop where
  limits : s.users.limits = limits
  conns : ∀ (i : ℕ) (c : Conn), s.conns[i]? = some c → c.Ok ∧ c.slot.userId ≠ ""
  members : ∀ u i, i ∈ s.users.get u ↔
    ∃ c, s.conns[i]? = some c ∧ c.slot.userId = u ∧ c.registered = true
  nodup : ∀ u, (s.users.get u).Nodup
  tallied : Tallied s.users (countSlots s.conns)
  closing : s.snapshots ≠ [] → s.users.closing = true
  snapshots : ∀ snap ∈ s.snapshots, ∀ u, ∀ i ∈ s.users.get u, i ∈ snap

section Step

variable {limits : Limits} {s s' : State} {i : ℕ} {c c' : Conn} {users : UserMap} {e : Event}

theorem Accounted.mem_iff (h : Accounted limits s) (hc : s.conns[i]? = some c) :
    i ∈ s.users.get c.slot.userId ↔ c.registered = true := by
  rw [h.members]
  constructor
  · rintro ⟨c', hc', -, hreg⟩
    rw [hc] at hc'
    exact Option.some.inj hc' ▸ hreg
  · exact fun hreg ↦ ⟨c, hc, rfl, hreg⟩

/-- A client is listed under its own user only. -/
theorem Accounted.user_eq (h : Accounted limits s) (hc : s.conns[i]? = some c) {u : String}
    (hi : i ∈ s.users.get u) : c.slot.userId = u := by
  obtain ⟨d, hd, hu, -⟩ := (h.members u i).1 hi
  exact Option.some.inj (hc.symm.trans hd) ▸ hu

theorem count_set (hc : s.conns[i]? = some c) (p : Slot → Bool) :
    countSlots (s.conns.set i c') p + (c.outstanding && p c.slot).toNat =
      countSlots s.conns p + (c'.outstanding && p c'.slot).toNat :=
  tally_set _ hc c'

/-- A member's list after a move: the other connections keep their places. -/
theorem members_set (h : Accounted limits s) (hc : s.conns[i]? = some c) (hslot : c'.slot = c.slot)
    {get' : String → List ℕ}
    (hother : ∀ u j, j ≠ i → (j ∈ get' u ↔ j ∈ s.users.get u))
    (hself : ∀ u, i ∈ get' u ↔ c.slot.userId = u ∧ c'.registered = true) (u : String) (j : ℕ) :
    j ∈ get' u ↔ ∃ d, (s.conns.set i c')[j]? = some d ∧ d.slot.userId = u ∧
      d.registered = true := by
  have hi : i < s.conns.length := (List.getElem?_eq_some_iff.1 hc).1
  by_cases hj : j = i
  · subst hj
    rw [hself, getElem?_set_self hi]
    simp [hslot]
  · rw [hother u j hj, getElem?_set_ne (Ne.symm hj), h.members]

/-- **A move keeps the accounts.** -/
theorem Accounted.move (h : Accounted limits s) (hc : s.conns[i]? = some c) (hok : c'.Ok)
    (hslot : c'.slot = c.slot) (hmoved : Moved s i c c' users) :
    Accounted limits { s with conns := s.conns.set i c', users } := by
  have huser := (h.conns i c hc).2
  have hmem := h.mem_iff hc
  have hconns : ∀ (j : ℕ) (d : Conn), (s.conns.set i c')[j]? = some d →
      d.Ok ∧ d.slot.userId ≠ "" :=
    forall_set (fun j d hd _ ↦ h.conns j d hd) ⟨hok, by rwa [hslot]⟩
  have hsame (hreg : c'.registered = c.registered) (u : String) :
      i ∈ s.users.get u ↔ c.slot.userId = u ∧ c'.registered = true := by
    rw [h.members, hreg]
    constructor
    · rintro ⟨d, hd, hu, hr⟩
      obtain rfl := Option.some.inj (hc.symm.trans hd)
      exact ⟨hu, hr⟩
    · exact fun ⟨hu, hr⟩ ↦ ⟨c, hc, hu, hr⟩
  have hcount (p : Slot → Bool) : countSlots (s.conns.set i c') p +
      (c.outstanding && p c.slot).toNat = countSlots s.conns p +
        (c'.outstanding && p c.slot).toNat := by
    rw [count_set hc, hslot]
  -- the registry's lists are untouched by all but adopting and unregistering
  have hkept {m : UserMap} (hreg : c'.registered = c.registered)
      (hm : m.limits = s.users.limits ∧ m.byUser = s.users.byUser ∧ m.closing = s.users.closing)
      (htallied : Tallied m (countSlots (s.conns.set i c'))) :
      Accounted limits { s with conns := s.conns.set i c', users := m } := by
    have hget (u : String) : m.get u = s.users.get u := by rw [UserMap.get, hm.2.1, UserMap.get]
    refine ⟨hm.1.trans h.limits, hconns,
      members_set h hc hslot (fun u j _ ↦ by rw [hget]) fun u ↦ by rw [hget]; exact hsame hreg u,
      fun u ↦ by rw [hget]; exact h.nodup u, htallied, fun hs ↦ hm.2.2.trans (h.closing hs),
      fun snap hs u j hj ↦ h.snapshots snap hs u j (by rwa [hget] at hj)⟩
  cases hmoved with
  | frame hout hreg =>
    refine hkept hreg ⟨rfl, rfl, rfl⟩ ?_
    have heq : countSlots (s.conns.set i c') = countSlots s.conns :=
      funext fun p ↦ by simpa [hout] using hcount p
    exact heq ▸ h.tallied
  | reserve hres hout hout' hreg =>
    refine hkept hreg (UserMap.reserve_eq_ok hres) (h.tallied.reserve hres fun p ↦ ?_)
    simpa [hout, hout'] using hcount p
  | release hout hout' hreg =>
    refine hkept hreg ⟨rfl, rfl, rfl⟩ (h.tallied.release (fun p ↦ ?_) huser)
    simpa [hout, hout'] using (hcount p).symm
  | adopt hadopt hout hreg hreg' =>
    obtain ⟨-, hclosing, rfl⟩ := UserMap.adopt_eq_ok hadopt
    have hnot : i ∉ s.users.get c.slot.userId := by rw [hmem, hreg]; simp
    refine ⟨h.limits, hconns, members_set h hc hslot (fun u j hj ↦ ?_) (fun u ↦ ?_), fun u ↦ ?_, ?_,
      fun hs ↦ h.closing hs, fun snap hs ↦ ?_⟩
    · rw [UserMap.get_insert]
      split
      next hu => simp [hu, hj]
      next => exact Iff.rfl
    · rw [UserMap.get_insert]
      split
      next hu => simp [hu, hreg']
      next hu => exact ⟨fun hi ↦ absurd (h.user_eq hc hi).symm hu, fun hi ↦ absurd hi.1.symm hu⟩
    · rw [UserMap.get_insert]
      split
      · exact nodup_append_comm.1 (nodup_cons.2 ⟨hnot, h.nodup _⟩)
      · exact h.nodup u
    · have heq : countSlots s.conns = countSlots (s.conns.set i c') :=
        funext fun p ↦ by simpa [hout] using (hcount p).symm
      exact heq ▸ h.tallied.setByUser _
    · -- a registry that refuses nobody has not been closed
      rw [h.closing (ne_nil_of_mem hs)] at hclosing
      cases hclosing
  | unregister hout hout' hreg hreg' =>
    have hin : i ∈ s.users.get c.slot.userId := hmem.2 hreg
    have hget := UserMap.get_unregister hin
    have heq : s.users.unregister i c.slot = UserMap.release
        { s.users with byUser := (s.users.unregister i c.slot).byUser } c.slot := by
      rw [UserMap.unregister, if_pos hin]
      rfl
    refine ⟨?_, hconns, members_set h hc hslot (fun u j hj ↦ ?_) (fun u ↦ ?_), fun u ↦ ?_, ?_,
      fun hs ↦ ?_, fun snap hs u j hj ↦ h.snapshots snap hs u j ?_⟩
    · rw [heq]
      exact h.limits
    · rw [hget]
      split
      next hu => rw [hu, mem_erase_of_ne hj]
      next => exact Iff.rfl
    · rw [hget, hreg']
      split
      next => simp [(h.nodup _).mem_erase_iff]
      next hu => simpa using fun hi ↦ hu (h.user_eq hc hi).symm
    · rw [hget]
      split
      · exact (h.nodup _).erase i
      · exact h.nodup u
    · rw [heq]
      refine (h.tallied.setByUser _).release (fun p ↦ ?_) huser
      simpa [hout, hout'] using (hcount p).symm
    · rw [heq]
      exact h.closing hs
    · rw [hget] at hj
      split at hj
      next hu => exact hu ▸ mem_of_mem_erase hj
      next => exact hj

theorem accounted_init (limits : Limits) : Accounted limits { users := UserMap.new limits } := by
  refine ⟨rfl, fun i c hc ↦ by simp at hc, fun u i ↦ ?_, fun u ↦ nodup_nil, ?_,
    fun hs ↦ absurd rfl hs, fun snap hs ↦ absurd hs not_mem_nil⟩
  · exact ⟨fun hi ↦ absurd hi not_mem_nil, fun ⟨c, hc, _⟩ ↦ by simp at hc⟩
  exact ⟨rfl, fun k ↦ rfl, fun k ↦ rfl, fun k ↦ rfl, fun hpos ↦ Int.le_of_lt hpos,
    fun hpos k ↦ Int.le_of_lt hpos, fun hpos k ↦ Int.le_of_lt hpos, fun hpos k ↦ Int.le_of_lt hpos⟩

/-- A request that arrives holds nothing yet. -/
theorem Accounted.arrive (h : Accounted limits s) {slot : Slot} (hslot : slot.userId ≠ "") :
    Accounted limits { s with conns := s.conns ++ [{ slot }] } := by
  refine ⟨h.limits, forall_append h.conns ⟨Conn.ok_new slot, hslot⟩, fun u j ↦ ?_, h.nodup, ?_,
    h.closing, h.snapshots⟩
  · rw [h.members]
    constructor
    · rintro ⟨d, hd, hu, hreg⟩
      exact ⟨d, by rw [List.getElem?_append_left (List.getElem?_eq_some_iff.1 hd).1, hd], hu, hreg⟩
    · rintro ⟨d, hd, hu, hreg⟩
      revert hu hreg
      refine forall_append (P := fun j d ↦ d.slot.userId = u → d.registered = true →
        ∃ d, s.conns[j]? = some d ∧ d.slot.userId = u ∧ d.registered = true)
        (fun j d hd hu hreg ↦ ⟨d, hd, hu, hreg⟩) (fun _ hreg ↦ ?_) j d hd
      cases hreg
  · have heq : countSlots (s.conns ++ [({ slot } : Conn)]) = countSlots s.conns := funext fun p ↦ by
      rw [countSlots, tally_append]
      rfl
    exact heq ▸ h.tallied

/-- **One step keeps the accounts.** -/
theorem Accounted.step (h : Accounted limits s) (hnext : s.next e = some s') :
    Accounted limits s' := by
  cases e with
  | arrive slot =>
    simp only [State.next] at hnext
    split at hnext
    · cases hnext
    next hslot =>
      cases hnext
      exact h.arrive hslot
  | move i m =>
    simp only [State.next] at hnext
    split at hnext
    · cases hnext
    next c hc =>
      obtain ⟨⟨c', users⟩, hmove, rfl⟩ := Option.map_eq_some_iff.1 hnext
      obtain ⟨hok, hslot, hmoved⟩ := (h.conns i c hc).1.next (h.mem_iff hc) hmove
      exact h.move hc hok hslot hmoved
  | cancelRun | sealWork =>
    cases hnext
    exact ⟨h.limits, h.conns, h.members, h.nodup, h.tallied, h.closing, h.snapshots⟩
  | closeUsers =>
    cases hnext
    have ht := h.tallied
    refine ⟨h.limits, h.conns, h.members, h.nodup,
      ⟨ht.total, ht.byUserN, ht.byToken, ht.byIp, ht.capTotal, ht.capUser, ht.capToken, ht.capIp⟩,
      fun _ ↦ rfl, fun snap hs u j hj ↦ ?_⟩
    rcases mem_cons.1 hs with rfl | hs
    · exact UserMap.mem_close.2 ⟨u, hj⟩
    · exact h.snapshots snap hs u j hj

/-- **Every reachable state is accounted for.** -/
theorem accounted (h : (lifecycle limits).Reachable s) : Accounted limits s :=
  System.invariant (fun s (hinit : s = _) ↦ hinit ▸ accounted_init limits)
    (fun _ _ _ _ hacc hstep ↦ hacc.step hstep) h

end Step

end Nexo.Gateway
