import Nexo.Gateway.SendQueue
import Nexo.Gateway.UserMap
import Nexo.Service.Message

/-!
# Push delivery

`gateway/push.go`, `gateway/pool.go` and the sending half of `gateway/client.go`: the bus consumer
hands every push event to the shard that owns its conversation, or drops and counts it when the
shard is full; one worker a shard takes the events one after the other, looks up who is to get them
and pushes a frame 2001 to every local connection of theirs.

A step of a worker is one store read, one look at the registry or one step of `Client.Push`, which
is the enqueue operation of `SendQueue`: it charges the frame, replaces it by a frame 2004 when the
node's bytes are used up, and closes the connection when its queue is full. Other goroutines send,
connections come and go, writers take frames from the queues and `close` runs at any time in
between. What the store and the member cache answer is not constrained.

Events are known by their place in the order in which they were received. The log of a connection is
history: the frames that were put into its queue, and the events whose frame was refused because the
connection was closed.
-/

namespace Nexo.Gateway

open Machine Option

/-! ### Events and shards -/

/-- `message.PushPayload`; without `msg` it is a reference, which `ref` says too but no receiver
reads. -/
structure PushPayload where
  conversationId : String
  seq : Int
  sessionType : Int
  senderId : String
  senderConnId : String
  recvId : String
  groupId : String
  ref : Bool := false
  msg : Option Dto.Message
  deriving DecidableEq

/-- `Service.ResolvePush`; nothing when the message is not found. -/
def resolvePush (d : Db) (p : PushPayload) : Option PushEvent :=
  (p.msg.or ((d.messages.get (.seq p.conversationId p.seq)).map Dto.messageFromStore)).map
    fun message ↦
      { conversationId := p.conversationId
        sessionType := p.sessionType
        senderId := p.senderId
        senderConnId := p.senderConnId
        recvId := p.recvId
        groupId := p.groupId
        message }

/-- `fnv.New32a` -/
def fnv32a (bytes : List UInt8) : UInt32 :=
  bytes.foldl (fun hash b ↦ (hash ^^^ b.toUInt32) * 16777619) 2166136261

/-- `shardOf` -/
def shardOf (key : String) (n : ℕ) : ℕ := (fnv32a key.toUTF8.toList % UInt32.ofNat n).toNat

theorem shardOf_lt (key : String) {n : ℕ} (h : 0 < n) : shardOf key n < n := by
  rw [shardOf, UInt32.toNat_mod]
  rcases Nat.lt_or_ge n (2 ^ 32) with hlt | hge
  · rw [UInt32.toNat_ofNat_of_lt' hlt]
    exact Nat.mod_lt _ h
  · exact (Nat.mod_le _ _).trans_lt ((UInt32.toNat_lt _).trans_le hge)

/-- The conversation of an event. -/
def conversationAt (received : List PushPayload) (index : ℕ) : String :=
  (received[index]?.map (·.conversationId)).getD ""

/-- The shard of an event, of `n`. -/
def shardAt (received : List PushPayload) (n index : ℕ) : ℕ := shardOf (conversationAt received index) n

/-! ### Connections -/

/-- What a frame is: 2001 of an event, the 2004 instead of it, or one that another goroutine sends.
-/
inductive FrameKind where
  | push (index : ℕ)
  | resync (index : ℕ)
  | other
  deriving DecidableEq

/-- An entry of a connection's log. -/
inductive LogEntry where
  | frame (f : Charge) (kind : FrameKind)
  /-- the frame of an event was refused: the connection is closed -/
  | refused (index : ℕ)
  deriving DecidableEq

structure Peer where
  id : String
  slot : Slot
  sender : Sender := {}
  /-- `close` has come to `Unregister` -/
  gone : Bool := false
  log : List LogEntry := []
  deriving DecidableEq

/-- Is the entry about an event? -/
def LogEntry.about (index : ℕ) : LogEntry → Bool
  | .frame _ (.push k) | .frame _ (.resync k) | .refused k => k = index
  | .frame _ .other => false

/-- The event whose frame 2001 the entry is. -/
def LogEntry.pushed : LogEntry → Option ℕ
  | .frame _ (.push k) => some k
  | _ => none

/-- The frame that was put into the queue. -/
def LogEntry.charge : LogEntry → Option Charge
  | .frame f _ => some f
  | .refused _ => none

/-- What an enqueue operation has put into the queue with a step. -/
def Op.sent (o o' : Op) : Option Charge :=
  match o.pc, o'.pc with
  | .enqueue f, .finished => some f
  | _, _ => none

/-! ### Workers -/

/-- What a worker knows of the event it is at. -/
structure Job where
  index : ℕ
  event : PushEvent
  /-- the connections that have been registered since the event was taken, up to the look at the
  connections of their user -/
  steady : List ℕ
  /-- the connections that were found -/
  reached : List ℕ := []
  roster : List String := []
  /-- what the visibility query saw -/
  db : Option Db := none

/-- Where a worker stands. -/
inductive WorkerPc where
  | idle
  /-- in `deliverOne`, about to call `ResolvePush` -/
  | taken (index : ℕ) (steady : List ℕ)
  /-- in `Deliver`, about to call `Recipients` -/
  | resolved (job : Job)
  /-- about to call `OnlineExcept` -/
  | listed (job : Job)
  /-- about to call `VisibleTo` -/
  | found (job : Job) (local_ : List String)
  /-- in the loops over the targets and, in `fanout`, over their connections -/
  | fanning (job : Job) (targets : List String) (conns : List ℕ)
  /-- in `Client.Push` -/
  | pushing (job : Job) (targets : List String) (conns : List ℕ) (op : Op)
  /-- in `Client.Close` -/
  | closing (job : Job) (targets : List String) (conns : List ℕ) (conn : ℕ)

/-- The event that the worker is at. -/
def WorkerPc.index : WorkerPc → Option ℕ
  | .idle => none
  | .taken index _ => some index
  | .resolved job | .listed job | .found job _ | .fanning job _ _ | .pushing job _ _ _
  | .closing job _ _ _ => some job.index

/-- A connection leaves the registry: it was not there throughout, unless it was found before. -/
def Job.left (j : ℕ) (job : Job) : Job :=
  { job with steady := job.steady.filter fun i ↦ i ≠ j ∨ i ∈ job.reached }

def WorkerPc.left (j : ℕ) : WorkerPc → WorkerPc
  | .idle => .idle
  | .taken index steady => .taken index (steady.filter (· ≠ j))
  | .resolved job => .resolved (job.left j)
  | .listed job => .listed (job.left j)
  | .found job local_ => .found (job.left j) local_
  | .fanning job targets conns => .fanning (job.left j) targets conns
  | .pushing job targets conns op => .pushing (job.left j) targets conns op
  | .closing job targets conns conn => .closing (job.left j) targets conns conn

@[simp] theorem WorkerPc.index_left (j : ℕ) (pc : WorkerPc) : (pc.left j).index = pc.index := by
  cases pc <;> rfl

structure Shard where
  queue : List ℕ := []
  worker : WorkerPc := .idle

structure PushState where
  users : UserMap
  budget : Budget
  peers : List Peer := []
  /-- the enqueue operations of other goroutines -/
  ops : List Op := []
  shards : List Shard
  pushDropped : ℕ := 0
  /-- the events, in the order in which they were received -/
  received : List PushPayload := []
  /-- the events that a worker has taken, in this order -/
  taken : List ℕ := []
  dropped : List ℕ := []
  /-- the events for which a store read has failed -/
  failed : List ℕ := []
  /-- the events that were processed -/
  reports : List Job := []

inductive PushEventLabel where
  /-- the bus consumer calls `enqueuePush` -/
  | receive (p : PushPayload)
  | take (w : ℕ)
  | resolve (w : ℕ) (d : Db)
  | recipients (w : ℕ) (roster : String → List String)
  | online (w : ℕ)
  | visibleTo (w : ℕ) (d : Db)
  /-- a store read of the worker fails -/
  | fail (w : ℕ)
  /-- the next connection, or the connections of the next target; the sizes are those of its frames
  -/
  | fan (w size resync : ℕ)
  | push (w : ℕ) (handoff : Bool)
  /-- `Close` returns -/
  | closed (w : ℕ)
  | connect (id : String) (slot : Slot)
  /-- a step of a connection's writer or of its `close` -/
  | client (j : ℕ) (m : SenderMove)
  | unregister (j : ℕ)
  | call (j : ℕ) (call : Call) (size : ℕ)
  | op (i : ℕ) (handoff : Bool)

namespace PushState

variable (capacity queueSize : ℕ) (s : PushState)

/-- The id of a connection. -/
def connId (j : ℕ) : String := (s.peers[j]?.map (·.id)).getD ""

/-- The user of a connection. -/
def userId (j : ℕ) : String := (s.peers[j]?.map (·.slot.userId)).getD ""

/-- `enqueuePush` -/
def receive (p : PushPayload) : PushState :=
  let index := s.received.length
  let w := shardOf p.conversationId s.shards.length
  let s := { s with received := s.received ++ [p] }
  match s.shards[w]? with
  | none => s
  | some shard =>
    if shard.queue.length < queueSize then
      { s with shards := s.shards.set w { shard with queue := shard.queue ++ [index] } }
    else { s with pushDropped := s.pushDropped + 1, dropped := s.dropped ++ [index] }

/-- Worker `w` goes on. -/
def goto (w : ℕ) (shard : Shard) (worker : WorkerPc) : PushState :=
  { s with shards := s.shards.set w { shard with worker } }

/-- Worker `w` is done with its event. -/
def finish (w : ℕ) (shard : Shard) (job : Job) : PushState :=
  { s.goto w shard .idle with reports := s.reports ++ [job] }

/-- Worker `w` gives its event up. -/
def giveUp (w : ℕ) (shard : Shard) : PushState :=
  { s.goto w shard .idle with failed := s.failed ++ shard.worker.index.toList }

/-- An entry of a connection's log. -/
def note (j : ℕ) (entry : LogEntry) : PushState :=
  { s with peers := s.peers.modify j fun peer ↦ { peer with log := peer.log ++ [entry] } }

/-- The next step of `fanout` and of the loop over the targets. -/
def fan (w : ℕ) (shard : Shard) (job : Job) (size resync : ℕ) : List String → List ℕ → PushState
  | targets, j :: conns =>
    if s.connId j = job.event.senderConnId then s.goto w shard (.fanning job targets conns)
    else
      s.goto w shard
        (.pushing job targets conns { client := j, call := .push resync, size })
  | target :: targets, [] =>
    let conns := s.users.get target
    s.goto w shard (.fanning { job with reached := job.reached ++ conns } targets conns)
  | [], [] => s.finish w shard job

/-- The kind of the frame that `Client.Push` is about to send. -/
def kindOf (index : ℕ) : Call → FrameKind
  | .send => .resync index
  | .push _ | .snapshot => .push index

/-- A step of an enqueue operation on its connection. -/
def stepOp (o : Op) (handoff : Bool) (kind : FrameKind) : Option (Op × PushState) :=
  match s.peers[o.client]? with
  | none => none
  | some peer =>
    (o.next capacity s.budget peer.sender handoff).map fun (o', sender, budget) ↦
      let log := peer.log ++ ((o.sent o').map fun f ↦ LogEntry.frame f kind).toList
      (o', { s with budget, peers := s.peers.set o.client { peer with sender, log } })

/-- A step of `Client.Push`. -/
def push (w : ℕ) (shard : Shard) (job : Job) (targets : List String) (conns : List ℕ) (o : Op)
    (handoff : Bool) : Option PushState :=
  (s.stepOp capacity o handoff (kindOf job.index o.call)).map fun (o', s) ↦
    match o.pc, o'.pc with
    | .enqueue _, .finished => s.goto w shard (.fanning job targets conns)
    | .slow, .finished => s.goto w shard (.closing job targets conns o.client)
    | _, .finished =>
      (s.note o.client (.refused job.index)).goto w shard (.fanning job targets conns)
    | _, _ => s.goto w shard (.pushing job targets conns o')

def next : PushEventLabel → Option PushState
  | .receive p => some (s.receive queueSize p)
  | .take w => do
    let shard ← s.shards[w]?
    match shard.worker, shard.queue with
    | .idle, index :: rest =>
      some { s.goto w { shard with queue := rest } (.taken index s.users.close.1) with
        taken := s.taken ++ [index] }
    | _, _ => none
  | .resolve w d => do
    let shard ← s.shards[w]?
    match shard.worker with
    | .taken index steady => do
      let p ← s.received[index]?
      match resolvePush d p with
      | none => some (s.giveUp w shard)
      | some event => some (s.goto w shard (.resolved { index, event, steady }))
    | _ => none
  | .recipients w roster => do
    let shard ← s.shards[w]?
    match shard.worker with
    | .resolved job =>
      some (s.goto w shard (.listed { job with roster := Message.recipients roster job.event }))
    | _ => none
  | .online w => do
    let shard ← s.shards[w]?
    match shard.worker with
    | .listed job =>
      let local_ := s.users.onlineExcept s.connId job.roster job.event.senderConnId
      if local_.isEmpty then some (s.finish w shard job)
      else some (s.goto w shard (.found job local_))
    | _ => none
  | .visibleTo w d => do
    let shard ← s.shards[w]?
    match shard.worker with
    | .found job local_ =>
      let targets := d.visibleOwners job.event.conversationId local_ job.event.message.seq
      some (s.goto w shard (.fanning { job with db := some d } targets []))
    | _ => none
  | .fail w => do
    let shard ← s.shards[w]?
    match shard.worker with
    | .taken _ _ | .resolved _ | .found _ _ => some (s.giveUp w shard)
    | _ => none
  | .fan w size resync => do
    let shard ← s.shards[w]?
    match shard.worker with
    | .fanning job targets conns => some (s.fan w shard job size resync targets conns)
    | _ => none
  | .push w handoff => do
    let shard ← s.shards[w]?
    match shard.worker with
    | .pushing job targets conns o => s.push capacity w shard job targets conns o handoff
    | _ => none
  | .closed w => do
    let shard ← s.shards[w]?
    match shard.worker with
    | .closing job targets conns j => do
      let peer ← s.peers[j]?
      if peer.gone then
        some ((s.note j (.refused job.index)).goto w shard (.fanning job targets conns))
      else none
    | _ => none
  | .connect id slot =>
    match s.users.reserve slot with
    | .error _ => none
    | .ok users =>
      match users.adopt s.peers.length slot false with
      | (some _, _) => none
      | (none, users) => some { s with users, peers := s.peers ++ [{ id, slot }] }
  | .client j m => do
    let peer ← s.peers[j]?
    let (sender, budget) ← peer.sender.next s.budget m
    some { s with budget, peers := s.peers.set j { peer with sender } }
  | .unregister j => do
    let peer ← s.peers[j]?
    if peer.sender.closer = .closed ∧ ¬ peer.gone then
      some { s with
        users := s.users.unregister j peer.slot
        peers := s.peers.set j { peer with gone := true }
        shards := s.shards.map fun shard ↦ { shard with worker := shard.worker.left j } }
    else none
  | .call j call size =>
    if j < s.peers.length then some { s with ops := s.ops ++ [{ client := j, call, size }] } else none
  | .op i handoff => do
    let o ← s.ops[i]?
    let (o', s) ← s.stepOp capacity o handoff .other
    some { s with ops := s.ops.set i o' }

end PushState

/-! ### What a step does -/

/-- The steps of a worker that touch nothing else. -/
inductive WorkerPc.Goes (s : PushState) : WorkerPc → WorkerPc → Prop
  | resolve {index : ℕ} {steady : List ℕ} {p : PushPayload} {d : Db} {event : PushEvent}
      (hp : s.received[index]? = some p) (hevent : resolvePush d p = some event) :
      Goes s (.taken index steady) (.resolved { index, event, steady })
  | recipients {job : Job} (roster : String → List String) :
      Goes s (.resolved job) (.listed { job with roster := Message.recipients roster job.event })
  | online {job : Job}
      (h : s.users.onlineExcept s.connId job.roster job.event.senderConnId ≠ []) :
      Goes s (.listed job)
        (.found job (s.users.onlineExcept s.connId job.roster job.event.senderConnId))
  | visibleTo {job : Job} {local_ : List String} (d : Db) :
      Goes s (.found job local_) (.fanning { job with db := some d }
        (d.visibleOwners job.event.conversationId local_ job.event.message.seq) [])
  | skip {job : Job} {targets : List String} {j : ℕ} {conns : List ℕ}
      (h : s.connId j = job.event.senderConnId) :
      Goes s (.fanning job targets (j :: conns)) (.fanning job targets conns)
  | push {job : Job} {targets : List String} {j : ℕ} {conns : List ℕ} (size resync : ℕ)
      (h : s.connId j ≠ job.event.senderConnId) :
      Goes s (.fanning job targets (j :: conns))
        (.pushing job targets conns { client := j, call := .push resync, size })
  | target {job : Job} {target : String} {targets : List String} :
      Goes s (.fanning job (target :: targets) [])
        (.fanning { job with reached := job.reached ++ s.users.get target } targets
          (s.users.get target))

/-- A worker is done with its event: no one is there, or the loops are over. -/
inductive WorkerPc.Ends (s : PushState) : WorkerPc → Job → Prop
  | offline {job : Job}
      (h : s.users.onlineExcept s.connId job.roster job.event.senderConnId = []) :
      Ends s (.listed job) job
  | done {job : Job} : Ends s (.fanning job [] []) job

theorem WorkerPc.Goes.index_eq {s : PushState} {pc pc' : WorkerPc} (h : pc.Goes s pc') :
    pc'.index = pc.index := by
  cases h <;> rfl

theorem WorkerPc.Ends.index_eq {s : PushState} {pc : WorkerPc} {job : Job} (h : pc.Ends s job) :
    pc.index = some job.index := by
  cases h <;> rfl

/-- What a step can do. -/
inductive PushMove (capacity queueSize : ℕ) (s : PushState) : PushState → Prop
  | receive (p : PushPayload) : PushMove capacity queueSize s (s.receive queueSize p)
  | take {w : ℕ} {shard : Shard} {index : ℕ} {rest : List ℕ} (hshard : s.shards[w]? = some shard)
      (hworker : shard.worker = .idle) (hqueue : shard.queue = index :: rest) :
      PushMove capacity queueSize s
        { s with
          shards := s.shards.set w { queue := rest, worker := .taken index s.users.close.1 }
          taken := s.taken ++ [index] }
  | goto {w : ℕ} {shard : Shard} {worker : WorkerPc} (hshard : s.shards[w]? = some shard)
      (hgoes : shard.worker.Goes s worker) : PushMove capacity queueSize s (s.goto w shard worker)
  | giveUp {w : ℕ} {shard : Shard} (hshard : s.shards[w]? = some shard) :
      PushMove capacity queueSize s (s.giveUp w shard)
  | finish {w : ℕ} {shard : Shard} {job : Job} (hshard : s.shards[w]? = some shard)
      (hends : shard.worker.Ends s job) : PushMove capacity queueSize s (s.finish w shard job)
  | push {w : ℕ} {shard : Shard} {job : Job} {targets : List String} {conns : List ℕ} {o : Op}
      {handoff : Bool} {s' : PushState} (hshard : s.shards[w]? = some shard)
      (hworker : shard.worker = .pushing job targets conns o)
      (hpush : s.push capacity w shard job targets conns o handoff = some s') :
      PushMove capacity queueSize s s'
  | closed {w : ℕ} {shard : Shard} {job : Job} {targets : List String} {conns : List ℕ} {j : ℕ}
      {peer : Peer} (hshard : s.shards[w]? = some shard)
      (hworker : shard.worker = .closing job targets conns j) (hpeer : s.peers[j]? = some peer)
      (hgone : peer.gone = true) :
      PushMove capacity queueSize s
        ((s.note j (.refused job.index)).goto w shard (.fanning job targets conns))
  | connect {id : String} {slot : Slot} {users users' : UserMap} (hreserve : s.users.reserve slot = .ok users)
      (hadopt : users.adopt s.peers.length slot false = (none, users')) :
      PushMove capacity queueSize s { s with users := users', peers := s.peers ++ [{ id, slot }] }
  | client {j : ℕ} {m : SenderMove} {peer : Peer} {sender : Sender} {budget : Budget}
      (hpeer : s.peers[j]? = some peer) (hnext : peer.sender.next s.budget m = some (sender, budget)) :
      PushMove capacity queueSize s { s with budget, peers := s.peers.set j { peer with sender } }
  | unregister {j : ℕ} {peer : Peer} (hpeer : s.peers[j]? = some peer)
      (hclosed : peer.sender.closer = .closed) :
      PushMove capacity queueSize s
        { s with
          users := s.users.unregister j peer.slot
          peers := s.peers.set j { peer with gone := true }
          shards := s.shards.map fun shard ↦ { shard with worker := shard.worker.left j } }
  | call (o : Op) : PushMove capacity queueSize s { s with ops := s.ops ++ [o] }
  | op {i : ℕ} {o o' : Op} {handoff : Bool} {s₁ : PushState}
      (hstep : s.stepOp capacity o handoff .other = some (o', s₁)) :
      PushMove capacity queueSize s { s₁ with ops := s₁.ops.set i o' }

namespace PushState

variable {capacity queueSize : ℕ} {s s' : PushState}

/-- What a step of an enqueue operation does. -/
theorem stepOp_eq_some {o o' : Op} {handoff : Bool} {kind : FrameKind}
    (h : s.stepOp capacity o handoff kind = some (o', s')) :
    ∃ peer sender budget, s.peers[o.client]? = some peer ∧
      o.next capacity s.budget peer.sender handoff = some (o', sender, budget) ∧
      s' = { s with
        budget
        peers := s.peers.set o.client { peer with
          sender
          log := peer.log ++ ((o.sent o').map fun f ↦ LogEntry.frame f kind).toList } } := by
  rw [stepOp] at h
  cases hpeer : s.peers[o.client]? with
  | none =>
    rw [hpeer] at h
    cases h
  | some peer =>
    simp only [hpeer] at h
    obtain ⟨⟨o₁, sender, budget⟩, hop, heq⟩ := map_eq_some_iff.1 h
    cases heq
    exact ⟨peer, sender, budget, rfl, hop, rfl⟩

/-- What a worker in `Client.Push` does. -/
theorem push_eq_some {w : ℕ} {shard : Shard} {job : Job} {targets : List String} {conns : List ℕ}
    {o : Op} {handoff : Bool} (h : s.push capacity w shard job targets conns o handoff = some s') :
    ∃ o' s₁, s.stepOp capacity o handoff (kindOf job.index o.call) = some (o', s₁) ∧
      ((∃ f, o.sent o' = some f ∧ s' = s₁.goto w shard (.fanning job targets conns)) ∨
        o.sent o' = none ∧
        ((o.pc = .slow ∧ s' = s₁.goto w shard (.closing job targets conns o.client)) ∨
        ((∀ f, o.pc ≠ .enqueue f) ∧ o.pc ≠ .slow ∧ o'.pc = .finished ∧
          s' = (s₁.note o.client (.refused job.index)).goto w shard (.fanning job targets conns)) ∨
        s' = s₁.goto w shard (.pushing job targets conns o'))) := by
  rw [push] at h
  obtain ⟨⟨o', s₁⟩, hstep, heq⟩ := map_eq_some_iff.1 h
  refine ⟨o', s₁, hstep, ?_⟩
  simp only at heq
  split at heq
  next f hpc hpc' => exact .inl ⟨f, by rw [Op.sent, hpc, hpc'], heq.symm⟩
  next hpc hpc' => exact .inr ⟨by rw [Op.sent, hpc, hpc'], .inl ⟨hpc, heq.symm⟩⟩
  next hpc' hne hne' =>
    refine .inr ⟨?_, .inr (.inl ⟨hne, hne', hpc', heq.symm⟩)⟩
    rw [Op.sent]
    split
    next f hpc _ => exact absurd hpc (hne f)
    next => rfl
  next hne _ _ =>
    refine .inr ⟨?_, .inr (.inr heq.symm)⟩
    rw [Op.sent]
    split
    next hpc' => exact absurd hpc' hne
    next => rfl

end PushState

/-! ### A node -/

/-- A node with `workers` shards. -/
def pushInit (limits : Limits) (limit : Int) (workers : ℕ) : PushState where
  users := .new limits
  budget := { limit }
  shards := List.replicate (max workers 1) {}

/-- The delivery of a node: queues of `queueSize` events a shard and `capacity` frames a connection.
-/
def pushing (limits : Limits) (limit : Int) (workers queueSize capacity : ℕ) :
    System PushState PushEventLabel :=
  .guarded (pushInit limits limit workers) (PushState.next capacity (max queueSize 1))

end Nexo.Gateway
