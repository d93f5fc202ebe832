import Nexo.Lib.Machine
import Mathlib.Algebra.BigOperators.Group.Multiset.Basic

/-!
# Send queues and the node's byte budget

`gateway/budget.go` and the sending half of `gateway/client.go`: every frame is charged to the
node's budget before it is enqueued, and the charge is given back by the writer that dequeues the
frame, by the enqueue that fails, or in one piece by the client's `close`.

A step is a section under a client's `sendMu` or one atomic add. The writer's section has an add of
its own and takes two steps, between which `sendMu` is held. Whatever makes a client close (a full
queue, a write error, a kick) only makes its `close` run, which may happen at any time here.

Byte counts are unbounded integers. The names of the charges, and the lists of what was charged and
given back, are history: the program knows the sizes only.
-/

namespace Nexo.Gateway

open Machine

/-- A charge of `size` bytes. A frame in a queue is the charge it came with. -/
structure Charge where
  id : ℕ
  size : ℕ
  deriving DecidableEq

/-- The bytes of some charges. -/
def bytes : Multiset Charge →+ Int :=
  Multiset.sumAddMonoidHom.comp (Multiset.mapAddMonoidHom fun f ↦ (f.size : Int))

@[simp] theorem bytes_singleton (f : Charge) : bytes {f} = f.size := by simp [bytes]

theorem bytes_nonneg (cs : Multiset Charge) : 0 ≤ bytes cs := by
  induction cs using Multiset.induction with
  | empty => simp
  | cons f cs ih =>
    rw [← Multiset.singleton_add, map_add, bytes_singleton]
    omega

/-- `sendBudget`. -/
structure Budget where
  limit : Int
  queued : Int := 0
  slowConsumers : ℕ := 0
  dropped : ℕ := 0
  issued : List Charge := []
  released : Multiset Charge := 0

namespace Budget

/-- The charge that the next `queued.Add(n)` makes. -/
def fresh (b : Budget) (n : ℕ) : Charge := ⟨b.issued.length, n⟩

/-- `queued.Add(n)`: the whole of `take`, and the first half of `tryTake`. -/
def add (b : Budget) (n : ℕ) : Budget :=
  { b with queued := b.queued + n, issued := b.issued ++ [b.fresh n] }

/-- Does `tryTake` admit `n` bytes? It looks at the total that includes them. -/
def admits (b : Budget) (n : ℕ) : Bool := !(b.limit > 0 && b.queued + n > b.limit)

/-- `queued.Add(-n)`, which gives the charges `cs` back. -/
def release (b : Budget) (n : Int) (cs : Multiset Charge) : Budget :=
  { b with queued := b.queued - n, released := b.released + cs }

end Budget

/-! ### Clients -/

/-- Where `writeLoop` stands. -/
inductive WriterPc where
  /-- not in `write` -/
  | idle
  /-- has taken a frame from the queue, `sendMu` next -/
  | dequeued (f : Charge)
  /-- holds `sendMu`, has lowered `queued`, `release` next -/
  | releasing (f : Charge)
  deriving DecidableEq

/-- How far `close` has come. -/
inductive CloserPc where
  | opened
  /-- `closing` is set and `queued` taken over; `cs` are the charges it is made of -/
  | marked (leaked : Int) (cs : Multiset Charge)
  | closed
  deriving DecidableEq

/-- `Client`, as far as sending goes. -/
structure Sender where
  send : List Charge := []
  queued : Int := 0
  closing : Bool := false
  writer : WriterPc := .idle
  closer : CloserPc := .opened
  deriving DecidableEq

namespace WriterPc

/-- The frame that is dequeued and not accounted yet. -/
def pending : WriterPc → Multiset Charge
  | dequeued f => {f}
  | idle | releasing _ => 0

def pendingBytes : WriterPc → Int
  | dequeued f => f.size
  | idle | releasing _ => 0

/-- The frame that is accounted and not released yet. -/
def charges : WriterPc → Multiset Charge
  | releasing f => {f}
  | idle | dequeued _ => 0

def held : WriterPc → Int
  | releasing f => f.size
  | idle | dequeued _ => 0

end WriterPc

namespace CloserPc

/-- What `close` has taken over and not released yet. -/
def charges : CloserPc → Multiset Charge
  | marked _ cs => cs
  | opened | closed => 0

def held : CloserPc → Int
  | marked leaked _ => leaked
  | opened | closed => 0

end CloserPc

namespace Sender

/-- The charges that `queued` is made of. -/
def owed (c : Sender) : Multiset Charge := if c.closing then 0 else c.send + c.writer.pending

/-- Is `sendMu` held between steps? -/
def locked (c : Sender) : Bool := c.writer matches .releasing _

/-- The bytes that the writer and `close` hold. -/
def held (c : Sender) : Int := c.writer.held + c.closer.held

end Sender

/-- The steps of a client's own goroutines. -/
inductive SenderMove where
  /-- the writer takes a frame -/
  | dequeue
  /-- the writer's section: `queued -= n` -/
  | account
  /-- the writer's section: `budget.release(n)` -/
  | release
  /-- a step of `close` -/
  | close
  deriving DecidableEq

/-- **One step of a client's writer or `close`.** -/
def Sender.next (b : Budget) (c : Sender) : SenderMove → Option (Sender × Budget)
  | .dequeue =>
    match c.writer, c.send with
    | .idle, f :: rest => some ({ c with send := rest, writer := .dequeued f }, b)
    | _, _ => none
  | .account =>
    match c.writer with
    | .dequeued f =>
      -- after `close` the accounting was already released in one piece
      if c.closing then some ({ c with writer := .idle }, b)
      else some ({ c with queued := c.queued - f.size, writer := .releasing f }, b)
    | _ => none
  | .release =>
    match c.writer with
    | .releasing f => some ({ c with writer := .idle }, b.release f.size {f})
    | _ => none
  | .close =>
    match c.closer with
    | .opened =>
      if c.locked then none
      else some ({ c with closing := true, queued := 0, closer := .marked c.queued c.owed }, b)
    | .marked leaked cs => some ({ c with closer := .closed }, b.release leaked cs)
    | .closed => none

/-! ### Enqueue operations -/

/-- What enqueues a frame. -/
inductive Call where
  /-- `Client.Send` -/
  | send
  /-- `Client.Push`; `resync` is the size of the frame sent instead of a dropped one -/
  | push (resync : ℕ)
  /-- `queueOnlineSnapshot` -/
  | snapshot
  deriving DecidableEq

inductive OpPc where
  /-- about to charge the frame -/
  | start
  /-- in `tryTake`: refused, about to take the charge back -/
  | undo (f : Charge)
  /-- in `tryTake`: about to count the drop -/
  | drop
  /-- in `queueFrame`, about to take `sendMu` -/
  | enqueue (f : Charge)
  /-- in `queueFrame`: not enqueued, about to release -/
  | giveBack (f : Charge) (full : Bool)
  /-- in `queueFrame`: about to count the slow consumer -/
  | slow
  | finished
  deriving DecidableEq

structure Op where
  client : ℕ
  call : Call
  size : ℕ
  pc : OpPc := .start
  deriving DecidableEq

/-- The charge that an operation holds. -/
def OpPc.charges : OpPc → Multiset Charge
  | undo f | enqueue f | giveBack f _ => {f}
  | start | drop | slow | finished => 0

/-- The bytes that an operation holds. -/
def Op.held (o : Op) : Int :=
  match o.pc with
  | .undo f | .enqueue f | .giveBack f _ => f.size
  | .start | .drop | .slow | .finished => 0

/-- **One step of an enqueue operation** on client `c`. A queue without capacity only takes a frame
that the waiting writer receives at once (`handoff`). -/
def Op.next (capacity : ℕ) (b : Budget) (c : Sender) (o : Op) (handoff : Bool) :
    Option (Op × Sender × Budget) :=
  match o.pc with
  | .start =>
    if o.call = .send ∨ b.admits o.size then
      some ({ o with pc := .enqueue (b.fresh o.size) }, c, b.add o.size)
    else some ({ o with pc := .undo (b.fresh o.size) }, c, b.add o.size)
  | .undo f => some ({ o with pc := .drop }, c, b.release f.size {f})
  | .drop =>
    match o.call with
    | .push resync =>
      some ({ o with call := .send, size := resync, pc := .start }, c,
        { b with dropped := b.dropped + 1 })
    | .send | .snapshot =>
      some ({ o with pc := .finished }, c, { b with dropped := b.dropped + 1 })
  | .enqueue f =>
    if c.locked then none
    else if c.closing then some ({ o with pc := .giveBack f false }, c, b)
    else if c.send.length < capacity then
      some ({ o with pc := .finished },
        { c with send := c.send ++ [f], queued := c.queued + f.size }, b)
    else if capacity = 0 ∧ handoff ∧ c.writer = .idle then
      some ({ o with pc := .finished },
        { c with writer := .dequeued f, queued := c.queued + f.size }, b)
    else some ({ o with pc := .giveBack f true }, c, b)
  | .giveBack f full =>
    some ({ o with pc := if full then .slow else .finished }, c, b.release f.size {f})
  | .slow =>
    some ({ o with pc := .finished }, c, { b with slowConsumers := b.slowConsumers + 1 })
  | .finished => none

/-! ### The node -/

structure SendState where
  budget : Budget
  clients : List Sender := []
  ops : List Op := []

inductive SendEvent where
  | connect
  | call (client : ℕ) (call : Call) (size : ℕ)
  | client (j : ℕ) (m : SenderMove)
  | op (i : ℕ) (handoff : Bool)
  deriving DecidableEq

/-- **One step of the node.** -/
def SendState.next (capacity : ℕ) (s : SendState) : SendEvent → Option SendState
  | .connect => some { s with clients := s.clients ++ [{}] }
  | .call client call size =>
    if client < s.clients.length then
      some { s with ops := s.ops ++ [{ client, call, size }] }
    else none
  | .client j m =>
    match s.clients[j]? with
    | none => none
    | some c =>
      (c.next s.budget m).map fun (c', budget) ↦
        { s with clients := s.clients.set j c', budget }
  | .op i handoff =>
    match s.ops[i]? with
    | none => none
    | some o =>
      match s.clients[o.client]? with
      | none => none
      | some c =>
        (o.next capacity s.budget c handoff).map fun (o', c', budget) ↦
          { budget, clients := s.clients.set o.client c', ops := s.ops.set i o' }

/-- The node as a transition system. -/
def sending (limit : Int) (capacity : ℕ) : System SendState SendEvent :=
  System.guarded { budget := { limit } } (SendState.next capacity)

end Nexo.Gateway
