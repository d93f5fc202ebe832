import Nexo.Gateway.Push

/-!
# The connections of a node that delivers

The log of a connection is history, and says what became of its queue: a frame is logged in the step
that puts it at the end of the queue, and frames leave the queue at the front, by the writer
(`Peer.Step`, `PushState.step_of_move`). So the queue is the end of the log, and a frame is refused
only by a connection whose `close` has begun (`Peer.Ok`). The registry lists connections under their
own user, none twice (`PushState.Connected`).

What a worker relies on while others move is `Keeps`: the connections it knows keep their id and
user, nothing is logged about its event, and a connection that is closing stays so.
-/

namespace Nexo.Gateway

open Machine List

/-! ### What a step does to a connection -/

/-- A writer takes from the front of the queue; `close` only ever closes. -/
theorem Sender.next_eq_some {b b' : Budget} {c c' : Sender} {m : SenderMove}
    (h : c.next b m = some (c', b')) :
    (c'.send = c.send ∨ ∃ f, c.send = f :: c'.send ∧ c'.writer = .dequeued f) ∧
      (c.closing = true → c'.closing = true) ∧
      (c'.closer ≠ .opened → c.closer ≠ .opened ∨ c'.closing = true) := by
  cases m with
  | dequeue =>
    simp only [Sender.next] at h
    split at h
    next f rest _ hsend =>
      cases h
      exact ⟨.inr ⟨f, hsend, rfl⟩, id, .inl⟩
    next => cases h
  | account =>
    simp only [Sender.next] at h
    split at h
    · split at h <;>
      · cases h
        exact ⟨.inl rfl, id, .inl⟩
    · cases h
  | release =>
    simp only [Sender.next] at h
    split at h
    · cases h
      exact ⟨.inl rfl, id, .inl⟩
    · cases h
  | close =>
    simp only [Sender.next] at h
    split at h
    · split at h
      · cases h
      · cases h
        exact ⟨.inl rfl, fun _ ↦ rfl, fun _ ↦ .inr rfl⟩
    next leaked cs hcloser =>
      cases h
      exact ⟨.inl rfl, id, fun _ ↦ .inl (hcloser ▸ by simp)⟩
    · cases h

/-- An enqueue operation leaves the queue alone, or puts its frame at the end. Without capacity the
frame goes to the writer at once. -/
theorem Op.next_eq_some {capacity : ℕ} {b b' : Budget} {c c' : Sender} {o o' : Op} {handoff : Bool}
    (h : o.next capacity b c handoff = some (o', c', b')) :
    o'.client = o.client ∧ c'.closing = c.closing ∧ c'.closer = c.closer ∧
      (o.sent o' = none ∧ c'.send = c.send ∨
        ∃ f, o.sent o' = some f ∧ c.closing = false ∧
          (c'.send = c.send ++ [f] ∧ c.send.length < capacity ∨
            c'.send = c.send ∧ capacity = 0 ∧ c'.writer = .dequeued f)) := by
  unfold Op.next at h
  split at h
  next hpc =>
    split at h <;>
    · cases h
      exact ⟨rfl, rfl, rfl, .inl ⟨by simp [Op.sent, hpc], rfl⟩⟩
  next hpc =>
    cases h
    exact ⟨rfl, rfl, rfl, .inl ⟨by simp [Op.sent, hpc], rfl⟩⟩
  next hpc =>
    split at h <;>
    · cases h
      exact ⟨rfl, rfl, rfl, .inl ⟨by simp [Op.sent, hpc], rfl⟩⟩
  next f hpc =>
    split_ifs at h with _ hclosing hroom hhandoff
    · cases h
      exact ⟨rfl, rfl, rfl, .inl ⟨by simp [Op.sent, hpc], rfl⟩⟩
    · cases h
      exact ⟨rfl, rfl, rfl, .inr ⟨f, by simp [Op.sent, hpc], by simpa using hclosing, .inl ⟨rfl, hroom⟩⟩⟩
    · cases h
      exact ⟨rfl, rfl, rfl,
        .inr ⟨f, by simp [Op.sent, hpc], by simpa using hclosing, .inr ⟨rfl, hhandoff.1, rfl⟩⟩⟩
    · cases h
      exact ⟨rfl, rfl, rfl, .inl ⟨by simp [Op.sent, hpc], rfl⟩⟩
  next f full hpc =>
    cases h
    exact ⟨rfl, rfl, rfl, .inl ⟨by simp [Op.sent, hpc], rfl⟩⟩
  next hpc =>
    cases h
    exact ⟨rfl, rfl, rfl, .inl ⟨by simp [Op.sent, hpc], rfl⟩⟩
  next => cases h

/-! ### A connection -/

/-- **What a step does to the queue of a connection, and to its log.** -/
inductive Peer.Step (capacity : ℕ) (p p' : Peer) : Prop
  | same (hlog : p'.log = p.log) (hsend : p'.sender.send = p.sender.send)
  /-- the writer takes the first frame -/
  | taken (f : Charge) (hlog : p'.log = p.log) (hsend : p.sender.send = f :: p'.sender.send)
      (hwriter : p'.sender.writer = .dequeued f)
  /-- a frame is put at the end -/
  | queued (f : Charge) (kind : FrameKind) (hlog : p'.log = p.log ++ [.frame f kind])
      (hsend : p'.sender.send = p.sender.send ++ [f]) (hroom : p.sender.send.length < capacity)
  /-- where a queue has no room for any frame, the writer takes it at once -/
  | handed (f : Charge) (kind : FrameKind) (hlog : p'.log = p.log ++ [.frame f kind])
      (hsend : p'.sender.send = p.sender.send) (hcapacity : capacity = 0)
      (hwriter : p'.sender.writer = .dequeued f)
  | refused (k : ℕ) (hlog : p'.log = p.log ++ [.refused k]) (hsend : p'.sender.send = p.sender.send)

namespace Peer.Step

variable {capacity : ℕ} {p p' : Peer}

theorem of_sender {b b' : Budget} {c' : Sender} {m : SenderMove}
    (h : p.sender.next b m = some (c', b')) : p.Step capacity { p with sender := c' } := by
  rcases (Sender.next_eq_some h).1 with hsend | ⟨f, hsend, hwriter⟩
  · exact .same rfl hsend
  · exact .taken f rfl hsend hwriter

theorem of_op {b b' : Budget} {c' : Sender} {o o' : Op} {handoff : Bool}
    (h : o.next capacity b p.sender handoff = some (o', c', b')) (kind : FrameKind) :
    p.Step capacity { p with
      sender := c'
      log := p.log ++ ((o.sent o').map fun f ↦ LogEntry.frame f kind).toList } := by
  obtain ⟨-, -, -, hsent⟩ := Op.next_eq_some h
  rcases hsent with ⟨hnone, hsend⟩ | ⟨f, hsome, -, hqueue⟩
  · rw [hnone]
    exact .same (append_nil _) hsend
  · rw [hsome]
    rcases hqueue with ⟨hsend, hroom⟩ | ⟨hsend, hzero, hwriter⟩
    · exact .queued f kind rfl hsend hroom
    · exact .handed f kind rfl hsend hzero hwriter

/-- **The queue stays the end of the log**, and within its capacity. -/
theorem queue (h : p.Step capacity p') (hroom : p.sender.send.length ≤ capacity)
    (hqueue : p.sender.send <:+ p.log.filterMap LogEntry.charge) :
    p'.sender.send.length ≤ capacity ∧ p'.sender.send <:+ p'.log.filterMap LogEntry.charge := by
  cases h with
  | same hlog hsend => exact ⟨hsend ▸ hroom, hlog ▸ hsend ▸ hqueue⟩
  | taken f hlog hsend _ =>
    have hsuffix : p'.sender.send <:+ p.sender.send := hsend ▸ suffix_cons f _
    exact ⟨hsuffix.length_le.trans hroom, hlog ▸ hsuffix.trans hqueue⟩
  | queued f kind hlog hsend hlt =>
    obtain ⟨front, hfront⟩ := hqueue
    rw [hlog, hsend, length_append, filterMap_append]
    exact ⟨hlt, front, by rw [← append_assoc, hfront]; rfl⟩
  | handed f kind hlog hsend hzero _ =>
    have hnil : p'.sender.send = [] := eq_nil_of_length_eq_zero (Nat.le_zero.1 (hzero ▸ hsend ▸ hroom))
    rw [hnil]
    exact ⟨Nat.zero_le _, nil_suffix⟩
  | refused k hlog hsend =>
    rw [hlog, hsend, filterMap_append]
    exact ⟨hroom, (append_nil _).symm ▸ hqueue⟩

end Peer.Step

/-- What is known of a connection. -/
structure Peer.Ok (capacity : ℕ) (p : Peer) : Prop where
  closer : p.sender.closer ≠ .opened → p.sender.closing = true
  gone : p.gone = true → p.sender.closing = true
  refused : ∀ k, .refused k ∈ p.log → p.sender.closing = true
  room : p.sender.send.length ≤ capacity
  queue : p.sender.send <:+ p.log.filterMap LogEntry.charge

namespace Peer.Ok

variable {capacity : ℕ} {p : Peer}

theorem new (id : String) (slot : Slot) : Peer.Ok capacity { id, slot } :=
  ⟨fun h ↦ absurd rfl h, nofun, nofun, Nat.zero_le _, suffix_rfl⟩

section

variable (h : p.Ok capacity)
include h

theorem move {b b' : Budget} {c' : Sender} {m : SenderMove}
    (hnext : p.sender.next b m = some (c', b')) : Peer.Ok capacity { p with sender := c' } := by
  obtain ⟨-, hclosing, hcloser⟩ := Sender.next_eq_some hnext
  obtain ⟨hroom, hqueue⟩ := (Peer.Step.of_sender hnext).queue h.room h.queue
  refine ⟨fun hne ↦ ?_, fun hgone ↦ hclosing (h.gone hgone), fun k hk ↦ hclosing (h.refused k hk),
    hroom, hqueue⟩
  rcases hcloser hne with hne | hc
  · exact hclosing (h.closer hne)
  · exact hc

/-- The frame that an operation puts into the queue is logged. -/
theorem op {b b' : Budget} {c' : Sender} {o o' : Op} {handoff : Bool}
    (hnext : o.next capacity b p.sender handoff = some (o', c', b')) (kind : FrameKind) :
    Peer.Ok capacity { p with
      sender := c'
      log := p.log ++ ((o.sent o').map fun f ↦ LogEntry.frame f kind).toList } := by
  obtain ⟨-, hclosing, hcloser, -⟩ := Op.next_eq_some hnext
  obtain ⟨hroom, hqueue⟩ := (Peer.Step.of_op hnext kind).queue h.room h.queue
  have hrefused (k : ℕ) (hk : .refused k ∈ p.log ++ ((o.sent o').map fun f ↦ LogEntry.frame f kind).toList) :
      .refused k ∈ p.log := by
    rcases mem_append.1 hk with hk | hk
    · exact hk
    · obtain ⟨f, -, hf⟩ := Option.map_eq_some_iff.1 (Option.mem_toList.1 hk)
      cases hf
  refine ⟨fun hne ↦ ?_, fun hgone ↦ hclosing.trans (h.gone hgone),
    fun k hk ↦ hclosing.trans (h.refused k (hrefused k hk)), hroom, hqueue⟩
  exact hclosing.trans (h.closer (hcloser ▸ hne))

/-- A connection that is closing refuses a frame. -/
theorem refuse (hclosing : p.sender.closing = true) (k : ℕ) :
    Peer.Ok capacity { p with log := p.log ++ [.refused k] } := by
  have hstep : p.Step capacity { p with log := p.log ++ [.refused k] } := .refused k rfl rfl
  obtain ⟨hroom, hqueue⟩ := hstep.queue h.room h.queue
  exact ⟨h.closer, h.gone, fun _ _ ↦ hclosing, hroom, hqueue⟩

theorem leave (hclosed : p.sender.closer = .closed) :
    Peer.Ok capacity { p with gone := true } :=
  ⟨h.closer, fun _ ↦ h.closer (hclosed ▸ by simp), h.refused, h.room, h.queue⟩

end

end Peer.Ok

namespace PushState

variable {capacity queueSize : ℕ} {s s' : PushState} {j : ℕ} {peer peer' : Peer}

/-! ### Connections by number -/

/-- How often the log of a connection mentions an event. -/
def entries (s : PushState) (j k : ℕ) : ℕ :=
  (s.peers[j]?.map fun peer ↦ peer.log.countP (·.about k)).getD 0

/-- `close` of the connection has begun. -/
def Closing (s : PushState) (j : ℕ) : Prop :=
  ∃ peer, s.peers[j]? = some peer ∧ peer.sender.closing = true

section

variable (h : s.peers[j]? = some peer)
include h

theorem connId_eq : s.connId j = peer.id := by
  rw [connId, h]
  rfl

theorem userId_eq : s.userId j = peer.slot.userId := by
  rw [userId, h]
  rfl

theorem entries_eq (k : ℕ) :
    s.entries j k = peer.log.countP (·.about k) := by
  rw [entries, h]
  rfl

theorem note_eq (entry : LogEntry) :
    s.note j entry = { s with peers := s.peers.set j { peer with log := peer.log ++ [entry] } } := by
  rw [note, modify_eq_set_getElem?, h]
  rfl

end

/-- The connections stay who they are, and closed when they are. -/
structure Knows (s s' : PushState) : Prop where
  length : s.peers.length ≤ s'.peers.length
  connId : ∀ j < s.peers.length, s'.connId j = s.connId j
  userId : ∀ j < s.peers.length, s'.userId j = s.userId j
  closing : ∀ j, s.Closing j → s'.Closing j

/-- What a worker at event `k` can rely on: besides, the logs say no more about the event. -/
structure Keeps (k : ℕ) (s s' : PushState) : Prop extends Knows s s' where
  entries : ∀ j, s'.entries j k = s.entries j k

/-- A connection changes. -/
theorem Knows.set (hpeer : s.peers[j]? = some peer) (hpeers : s'.peers = s.peers.set j peer')
    (hid : peer'.id = peer.id) (hslot : peer'.slot = peer.slot)
    (hclosing : peer.sender.closing = true → peer'.sender.closing = true) : Knows s s' := by
  obtain ⟨hlt, -⟩ := List.getElem?_eq_some_iff.1 hpeer
  have hself : s'.peers[j]? = some peer' := by rw [hpeers, getElem?_set_self hlt]
  have hother (i : ℕ) (hne : i ≠ j) : s'.peers[i]? = s.peers[i]? := by
    rw [hpeers, getElem?_set_ne (Ne.symm hne)]
  refine ⟨by rw [hpeers, length_set], fun i _ ↦ ?_, fun i _ ↦ ?_, fun i hi ↦ ?_⟩
  · by_cases hij : i = j
    · rw [hij, connId_eq hself, connId_eq hpeer, hid]
    · rw [PushState.connId, PushState.connId, hother i hij]
  · by_cases hij : i = j
    · rw [hij, userId_eq hself, userId_eq hpeer, hslot]
    · rw [PushState.userId, PushState.userId, hother i hij]
  · by_cases hij : i = j
    · obtain ⟨peer₁, hpeer₁, hc⟩ := hij ▸ hi
      obtain rfl := Option.some.inj (hpeer.symm.trans hpeer₁)
      exact hij ▸ ⟨peer', hself, hclosing hc⟩
    · obtain ⟨peer₁, hpeer₁, hc⟩ := hi
      exact ⟨peer₁, (hother i hij).trans hpeer₁, hc⟩

/-- What the logs say about an event when a connection changes. -/
theorem entries_set (hpeer : s.peers[j]? = some peer) (hpeers : s'.peers = s.peers.set j peer')
    (i k : ℕ) : s'.entries i k = if i = j then peer'.log.countP (·.about k) else s.entries i k := by
  obtain ⟨hlt, -⟩ := List.getElem?_eq_some_iff.1 hpeer
  split
  next hij =>
    rw [hij, entries, hpeers, getElem?_set_self hlt]
    rfl
  next hij => rw [entries, entries, hpeers, getElem?_set_ne (Ne.symm hij)]

namespace Keeps

variable {k : ℕ}

theorem of_eq (h : s'.peers = s.peers) : Keeps k s s' where
  length := h ▸ le_rfl
  connId j _ := by rw [PushState.connId, PushState.connId, h]
  userId j _ := by rw [PushState.userId, PushState.userId, h]
  entries j := by rw [PushState.entries, PushState.entries, h]
  closing j := by
    rw [Closing, Closing, h]
    exact id

/-- A connection changes, and its log says no more about the event than before. -/
theorem set (hpeer : s.peers[j]? = some peer) (hpeers : s'.peers = s.peers.set j peer')
    (hid : peer'.id = peer.id) (hslot : peer'.slot = peer.slot)
    (hclosing : peer.sender.closing = true → peer'.sender.closing = true)
    (hlog : peer'.log.countP (·.about k) = peer.log.countP (·.about k)) : Keeps k s s' := by
  refine ⟨Knows.set hpeer hpeers hid hslot hclosing, fun i ↦ ?_⟩
  rw [entries_set hpeer hpeers]
  split
  next hij => rw [hij, entries_eq hpeer, hlog]
  next => rfl

/-- A connection comes. -/
theorem append (hpeers : s'.peers = s.peers ++ [peer]) (hlog : peer.log = []) : Keeps k s s' := by
  have hold (i : ℕ) (hi : i < s.peers.length) : s'.peers[i]? = s.peers[i]? := by
    rw [hpeers, getElem?_append_left hi]
  refine ⟨⟨by simp [hpeers], fun i hi ↦ ?_, fun i hi ↦ ?_, fun i ⟨peer₁, hpeer₁, hc⟩ ↦ ?_⟩, fun i ↦ ?_⟩
  · rw [PushState.connId, PushState.connId, hold i hi]
  · rw [PushState.userId, PushState.userId, hold i hi]
  · obtain ⟨hi, -⟩ := List.getElem?_eq_some_iff.1 hpeer₁
    exact ⟨peer₁, (hold i hi).trans hpeer₁, hc⟩
  · rcases Nat.lt_or_ge i s.peers.length with hi | hi
    · rw [PushState.entries, PushState.entries, hold i hi]
    · -- nothing is logged for a new connection, and for one that is not there
      rw [PushState.entries, PushState.entries, hpeers, getElem?_append_right hi,
        getElem?_eq_none hi]
      rcases i - s.peers.length with - | i
      · simp [hlog]
      · simp

end Keeps

/-! ### The registry -/

/-- The connections, and the registry that lists them. -/
structure Connected (capacity : ℕ) (s : PushState) : Prop where
  peers : ∀ (j : ℕ) (peer : Peer), s.peers[j]? = some peer → peer.Ok capacity
  owner : ∀ u, ∀ j ∈ s.users.get u, j < s.peers.length ∧ s.userId j = u
  distinct : ∀ u, (s.users.get u).Nodup

namespace Connected

section

variable (h : s.Connected capacity)
include h

theorem of_eq (hpeers : s'.peers = s.peers) (husers : s'.users = s.users) :
    s'.Connected capacity where
  peers := hpeers ▸ h.peers
  owner u j hj := by
    rw [userId, hpeers]
    exact h.owner u j (husers ▸ hj)
  distinct u := husers ▸ h.distinct u

/-- A connection changes. -/
theorem set (hpeer : s.peers[j]? = some peer)
    (hpeers : s'.peers = s.peers.set j peer') (husers : s'.users = s.users)
    (hslot : peer'.slot = peer.slot) (hok : peer'.Ok capacity) : s'.Connected capacity := by
  obtain ⟨hlt, -⟩ := List.getElem?_eq_some_iff.1 hpeer
  refine ⟨?_, fun u i hi ↦ ?_, fun u ↦ husers ▸ h.distinct u⟩
  · rw [hpeers]
    exact forall_set (fun i r hi _ ↦ h.peers i r hi) hok
  · obtain ⟨hbound, howner⟩ := h.owner u i (husers ▸ hi)
    refine ⟨by rwa [hpeers, length_set], ?_⟩
    by_cases hij : i = j
    · have hself : s'.peers[j]? = some peer' := by rw [hpeers, getElem?_set_self hlt]
      rw [hij, userId_eq hself, hslot, ← userId_eq hpeer, ← hij, howner]
    · rw [userId, hpeers, getElem?_set_ne (Ne.symm hij)]
      exact howner

/-- A connection comes. -/
theorem connect (id : String) {slot : Slot} {users users' : UserMap}
    (hreserve : s.users.reserve slot = .ok users)
    (hadopt : users.adopt s.peers.length slot false = (none, users')) :
    (∀ u, ∀ i ∈ s.users.get u, i ∈ users'.get u) ∧
      Connected capacity { s with users := users', peers := s.peers ++ [{ id, slot }] } := by
  obtain ⟨-, -, hinsert⟩ := UserMap.adopt_eq_ok hadopt
  have hget (u : String) : users.get u = s.users.get u := by
    rw [UserMap.get, (UserMap.reserve_eq_ok hreserve).2.1]
    rfl
  have hget' (u : String) : users'.get u =
      if u = slot.userId then s.users.get slot.userId ++ [s.peers.length] else s.users.get u := by
    rw [hinsert, UserMap.get_insert, hget, hget]
  refine ⟨fun u i hi ↦ ?_, ?_, fun u i hi ↦ ?_, fun u ↦ ?_⟩
  · rw [hget']
    split
    next heq => exact mem_append_left _ (heq ▸ hi)
    next => exact hi
  · exact forall_append h.peers (Peer.Ok.new id slot)
  · rw [hget'] at hi
    rw [length_append, length_singleton]
    have hold (hi : i ∈ s.users.get u) : i < s.peers.length + 1 ∧
        ((s.peers ++ [({ id, slot } : Peer)])[i]?.map (·.slot.userId)).getD "" = u := by
      obtain ⟨hlt, howner⟩ := h.owner u i hi
      exact ⟨by omega, by rw [getElem?_append_left hlt, ← howner]; rfl⟩
    split at hi
    next heq =>
      rcases mem_append.1 hi with hi | hi
      · exact hold (heq ▸ hi)
      · rw [mem_singleton.1 hi]
        exact ⟨by omega, by simp [userId, heq]⟩
    next => exact hold hi
  · rw [hget']
    split
    · refine nodup_append.2 ⟨h.distinct _, nodup_singleton _, fun i hi k hk ↦ ?_⟩
      rw [mem_singleton.1 hk]
      exact (h.owner _ i hi).1.ne
    · exact h.distinct u

/-- A connection leaves. -/
theorem unregister (hpeer : s.peers[j]? = some peer)
    (hclosed : peer.sender.closer = .closed) (shards : List Shard) :
    (∀ u, ∀ i ∈ s.users.get u, i ≠ j → i ∈ (s.users.unregister j peer.slot).get u) ∧
      Connected capacity { s with
        users := s.users.unregister j peer.slot
        peers := s.peers.set j { peer with gone := true }
        shards } := by
  have hset : Connected capacity { s with peers := s.peers.set j { peer with gone := true }, shards } :=
    h.set hpeer rfl rfl rfl ((h.peers j peer hpeer).leave hclosed)
  by_cases hmem : j ∈ s.users.get peer.slot.userId
  · have hget := UserMap.get_unregister hmem
    have hsub (u : String) : List.Sublist ((s.users.unregister j peer.slot).get u) (s.users.get u) := by
      rw [hget]
      split
      next heq => exact heq ▸ erase_sublist
      next => exact List.Sublist.refl _
    refine ⟨fun u i hi hne ↦ ?_, hset.peers, fun u i hi ↦ hset.owner u i ((hsub u).subset hi),
      fun u ↦ (h.distinct u).sublist (hsub u)⟩
    rw [hget]
    split
    next heq => exact (mem_erase_of_ne hne).2 (heq ▸ hi)
    next => exact hi
  · have hsame : s.users.unregister j peer.slot = s.users := by rw [UserMap.unregister, if_neg hmem]
    rw [hsame]
    exact ⟨fun u i hi _ ↦ hi, hset⟩

end

end Connected

end PushState

end Nexo.Gateway
