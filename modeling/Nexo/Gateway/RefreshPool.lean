import Nexo.Gateway.Lifecycle
import Nexo.Gateway.Presence

/-!
# The refresh workers at the end of a node

`dispatchOnline`, the workers of `startPool` and `Shutdown`, statement by statement, with clients
that come, are drained and close at any time. The dispatcher holds the scheduler's lock `mu` for a
whole turn, in which it registers an operation with the work group and hands the job to the pool; a
worker gives the registration back. When `g.ctx` ends, a worker runs what is still queued and exits.

A section of others under `mu` is one step that needs the lock to be free; one under `kickMu`, the
lock of the registry or that of the work group is one step. The heap `due` is a list with its head
first: when a connection becomes ready, where in the queue it stands and whether the frame limiter
has a token are decisions of the environment. So is whether the context of a registered operation is
done, since its end may have many reasons and reaches it some time later.
-/

namespace Nexo.Gateway.RefreshPool

open Machine

/-- `onlineRead`: whose, and whether its operation is registered. -/
structure Job where
  client : ℕ
  registered : Bool
  deriving DecidableEq

/-- Where `startOnlineSubscriptions` and the dispatcher it starts stand; from `check` to `unlock`
and in `stop` the dispatcher has the lock. -/
inductive DispatchPc where
  /-- in `startPool` -/
  | start
  /-- `g.work.begin()` for the dispatcher -/
  | begin_
  /-- `p.mu.Lock()` -/
  | lock
  /-- `if g.closing.Load() || p.stopped` -/
  | check
  /-- `for len(p.due) > 0`, and whether the head is ready -/
  | head
  /-- `if p.reads == onlineRefreshWorkers` -/
  | slots (i : ℕ)
  /-- `p.frames.ReserveN` and what follows from it -/
  | reserve (i : ℕ)
  /-- `context.WithCancel` -/
  | withCancel (i : ℕ)
  /-- `g.work.op` -/
  | op (i : ℕ)
  /-- `p.jobs <- onlineRead{...}` -/
  | send (i : ℕ) (registered : Bool)
  /-- `heap.Pop` -/
  | pop
  /-- `p.reads++` -/
  | count
  /-- the fields of the subscription -/
  | note
  | unlock
  /-- the `select` -/
  | park
  /-- the deferred function: `p.mu.Lock()`, then the rest of it -/
  | stopLock
  | stop
  | exited
  deriving DecidableEq

/-- Where a worker stands. -/
inductive WorkerPc where
  /-- the `select` of the loop, or that of the inner one -/
  | select
  /-- `job.ctx.Err()` -/
  | read (job : Job)
  /-- in `OnlineStatus` -/
  | asking (job : Job)
  /-- `job.cancel()` -/
  | cancel (job : Job)
  /-- in `finishOnlineRead`: `p.mu.Lock()`, the body, the deferred function -/
  | lock (i : ℕ)
  | adopt (i : ℕ)
  | unlock (i : ℕ) (slow : Bool)
  /-- `slow.Close` -/
  | close (i : ℕ)
  | exited
  deriving DecidableEq

structure Worker where
  pc : WorkerPc := .select
  /-- in the inner loop -/
  draining : Bool := false
  deriving DecidableEq

/-- How far the drain of a client has come. -/
inductive DrainPc where
  | none
  /-- `beginDrain` of a kick is done, its `removeOnlineSubscriptions` is next -/
  | kicked
  | drained
  deriving DecidableEq

structure Client where
  slot : Slot
  /-- the upgrade callback has called `Adopt` -/
  adopted : Bool := false
  drain : DrainPc := .none
  close : ClosePc := .opened
  /-- it is in `active` -/
  subscribed : Bool := false
  deriving DecidableEq

/-- Nothing of the client's own has ended `activeCtx`. -/
def Client.active (c : Client) : Bool := c.drain = .none && c.close = .opened

/-- The channel `closed` is closed. -/
def Client.closedChan (c : Client) : Bool :=
  c.close = .closed || c.close = .released || c.close = .unregistered || c.close = .finished

/-- Where `Shutdown` stands. -/
inductive Pc where
  | idle
  | closing
  | record
  | cancelRun
  | closeUsers
  | arm (clients : List ℕ)
  /-- `closeAfterFlush` of each of these -/
  | drain (clients todo : List ℕ)
  /-- in `finishDrain` of this one -/
  | finishDrain (clients : List ℕ) (i : ℕ) (todo : List ℕ)
  | poll (clients : List ℕ)
  | late (clients : List ℕ)
  | lateCancelOps (clients : List ℕ)
  /-- `c.close()` of each of these -/
  | lateClose (todo : List ℕ)
  | cancelOps
  | cancel
  | seal_
  | wait_
  | stopHard
  | returned
  deriving DecidableEq

/-- The function that the end of the context starts. -/
inductive HardPc where
  | none
  | armed (clients : List ℕ)
  | cancelOps (clients : List ℕ)
  | cancel (clients : List ℕ)
  | close (todo : List ℕ)
  | stopped
  deriving DecidableEq

/-- Who has `mu`. -/
inductive Holder where
  | dispatcher
  | worker (k : ℕ)
  deriving DecidableEq

structure State where
  users : UserMap
  clients : List Client := []
  closing : Bool := false
  /-- the context of the run is done -/
  runDone : Bool := false
  /-- `g.ctx` is done -/
  ctxDone : Bool := false
  /-- the work group: its shutdown context is set, its operations are cancelled, it is sealed -/
  recorded : Bool := false
  opsDone : Bool := false
  workSealed : Bool := false
  /-- the context of `Shutdown` is done -/
  deadline : Bool := false
  mu : Option Holder := none
  stopped : Bool := false
  due : List ℕ := []
  reads : ℕ := 0
  jobs : List Job := []
  dispatcher : DispatchPc := .start
  workers : List Worker := []
  pc : Pc := .idle
  hard : HardPc := .none

/-- What the environment decides at a step: a condition, and a place in the queue. -/
structure Input where
  yes : Bool := true
  place : ℕ := 0
  deriving DecidableEq

inductive Event where
  /-- a slot is reserved and its client created, then the upgrade callback calls `Adopt` -/
  | open_ (slot : Slot)
  | adopt (i : ℕ)
  /-- `setOnlineSubscriptions`, for some users or for none -/
  | set (i : ℕ) (input : Input)
  /-- `markOnlineChanged` marks the subscription of this client -/
  | mark (i : ℕ) (place : ℕ)
  /-- a kick: `beginDrain`, then `removeOnlineSubscriptions` -/
  | kick (i : ℕ)
  | finishDrain (i : ℕ)
  /-- the next step of a client's `close` -/
  | close (i : ℕ)
  /-- the next step of the dispatcher, and of a worker -/
  | dispatch (input : Input)
  | work (k : ℕ) (input : Input)
  /-- the context of the run ends -/
  | stopRun
  | shutdown
  /-- the next statement of `Shutdown`, and of the function it hands to `AfterFunc` -/
  | main
  | hard
  /-- the context of `Shutdown` ends -/
  | expire
  deriving DecidableEq

/-- The client whose read a worker has in hand. -/
def WorkerPc.reads : WorkerPc → Option ℕ
  | .read job | .asking job | .cancel job => some job.client
  | .lock i | .adopt i => some i
  | .select | .unlock _ _ | .close _ | .exited => none

namespace State

/-- `requeue`: the connection is queued once, at some place. -/
def requeue (s : State) (i place : ℕ) : State :=
  let due := s.due.erase i
  { s with due := due.take place ++ i :: due.drop place }

/-- `remove`, and for the caller the end of the subscription. -/
def removeSub (s : State) (i : ℕ) : State :=
  { s with
    due := s.due.erase i
    clients := s.clients.modify i fun c ↦ { c with subscribed := false } }

/-- A read of the client is in flight: `s.cancel != nil`. -/
def reading (s : State) (i : ℕ) : Bool :=
  s.jobs.any (·.client = i) || s.workers.any (·.pc.reads = some i)

/-- `activeCtx` of the client is not done. -/
def activeCtx (s : State) (c : Client) : Bool := !s.ctxDone && c.active

/-- The client's `close` has returned. -/
def closed (s : State) (i : ℕ) : Bool := s.clients[i]?.any (·.close = .finished)

/-- `work.op` registers: the group is not sealed, and neither its operations nor the shutdown
context are done. -/
def registers (s : State) : Bool := !(s.workSealed || s.opsDone || s.recorded && s.deadline)

/-- One step of the dispatcher. -/
def dispatchNext (s : State) (input : Input) : Option State :=
  let goes (pc : DispatchPc) : Option State := some { s with dispatcher := pc }
  match s.dispatcher with
  | .start =>
    if s.workers.length < onlineRefreshWorkers ∧ s.workSealed = false then
      some { s with workers := s.workers ++ [{}] }
    else goes .begin_
  | .begin_ => goes (if s.workSealed then .exited else .lock)
  | .lock => if s.mu = none then some { s with mu := some .dispatcher, dispatcher := .check } else none
  | .check => goes (if s.closing || s.stopped then .unlock else .head)
  | .head =>
    match s.due with
    | [] => goes .unlock
    | i :: _ => goes (if input.yes then .slots i else .unlock)
  | .slots i => goes (if s.reads = onlineRefreshWorkers then .unlock else .reserve i)
  | .reserve i => goes (if input.yes then .withCancel i else .unlock)
  | .withCancel i => goes (.op i)
  | .op i => goes (.send i s.registers)
  | .send i registered =>
    if s.jobs.length < onlineRefreshWorkers then
      some { s with jobs := s.jobs ++ [⟨i, registered⟩], dispatcher := .pop }
    else none
  | .pop => some { s with due := s.due.tail, dispatcher := .count }
  | .count => some { s with reads := s.reads + 1, dispatcher := .note }
  | .note => goes .head
  | .unlock => some { s with mu := none, dispatcher := .park }
  | .park => if input.yes then goes .lock else if s.runDone then goes .stopLock else none
  | .stopLock =>
    if s.mu = none then some { s with mu := some .dispatcher, dispatcher := .stop } else none
  | .stop =>
    some { s with
      stopped := true
      due := []
      clients := s.clients.map fun c ↦ { c with subscribed := false }
      mu := none
      dispatcher := .exited }
  | .exited => none

/-- One step of worker `k`. -/
def workNext (s : State) (k : ℕ) (w : Worker) (input : Input) : Option State :=
  let goes (w : Worker) : State := { s with workers := s.workers.set k w }
  match w.pc with
  | .select =>
    match input.yes, s.jobs with
    -- a job
    | true, job :: jobs => some { goes { w with pc := .read job } with jobs }
    | true, [] => none
    -- the end of the context; in the inner loop, `default`
    | false, jobs =>
      if w.draining then if jobs = [] then some (goes { w with pc := .exited }) else none
      else if s.ctxDone then some (goes { w with draining := true }) else none
  | .read job =>
    some (goes { w with pc := if job.registered && input.yes then .asking job else .cancel job })
  | .asking job => some (goes { w with pc := .cancel job })
  | .cancel job => some (goes { w with pc := .lock job.client })
  | .lock i =>
    if s.mu = none then some { goes { w with pc := .adopt i } with mu := some (.worker k) } else none
  | .adopt i =>
    s.clients[i]?.map fun c ↦
      if s.stopped || s.closing || !s.activeCtx c || !c.subscribed then
        goes { w with pc := .unlock i false }
      else (goes { w with pc := .unlock i !input.yes }).requeue i input.place
  | .unlock i slow =>
    some { goes { w with pc := if slow then .close i else .select } with
      reads := s.reads - 1
      mu := none }
  | .close i => if s.closed i then some (goes { w with pc := .select }) else none
  | .exited => none

/-- One step of the `close` of client `i`. -/
def closeNext (s : State) (i : ℕ) (c : Client) : Option State :=
  let goes (close : ClosePc) : List Client := s.clients.set i { c with close }
  match c.close with
  | .opened => some { s with clients := goes .cancelled }
  | .cancelled => some { s with clients := goes .marked }
  | .marked => some { s with clients := goes .closed }
  | .closed => some { s with clients := goes .released }
  | .released => some { s with users := s.users.unregister i c.slot, clients := goes .unregistered }
  | .unregistered =>
    if s.mu = none then some ({ s with clients := goes .finished }.removeSub i) else none
  | .none | .finished => none

/-- Nothing that the work group has registered here is left. -/
def quiet (s : State) : Bool :=
  s.workers.all (·.pc = .exited) && s.dispatcher = .exited && s.jobs.all (!·.registered)

/-- One statement of `Shutdown`. -/
def mainNext (s : State) : Option State :=
  match s.pc with
  | .idle | .returned => none
  | .closing => some { s with closing := true, pc := .record }
  | .record => some { s with recorded := true, pc := .cancelRun }
  | .cancelRun => some { s with runDone := true, pc := .closeUsers }
  | .closeUsers => some { s with users := s.users.close.2, pc := .arm s.users.close.1 }
  | .arm clients => some { s with hard := .armed clients, pc := .drain clients clients }
  | .drain clients [] => some { s with pc := .poll clients }
  | .drain clients (i :: todo) =>
    s.clients[i]?.map fun c ↦
      if s.activeCtx c then
        { s with
          clients := s.clients.set i { c with drain := .drained }
          pc := .finishDrain clients i todo }
      else { s with pc := .drain clients todo }
  | .finishDrain clients i todo =>
    if s.mu = none then some { s.removeSub i with pc := .drain clients todo } else none
  | .poll clients =>
    some { s with pc := if s.users.total > 0 && !s.deadline then .poll clients else .late clients }
  | .late clients => some { s with pc := if s.deadline then .lateCancelOps clients else .cancelOps }
  | .lateCancelOps clients => some { s with opsDone := true, pc := .lateClose clients }
  | .lateClose [] => some { s with pc := .cancelOps }
  | .lateClose (i :: todo) => if s.closed i then some { s with pc := .lateClose todo } else none
  | .cancelOps => some { s with opsDone := true, pc := .cancel }
  | .cancel => some { s with ctxDone := true, pc := .seal_ }
  | .seal_ => some { s with workSealed := true, pc := .wait_ }
  -- the goroutine that waits for the group, or the end of the context
  | .wait_ => if s.quiet || s.deadline then some { s with pc := .stopHard } else none
  | .stopHard =>
    match s.hard with
    | .armed _ => some { s with hard := .stopped, pc := .returned }
    | .close [] => some { s with pc := .returned }
    | _ => none

/-- One statement of the function that the end of the context starts. -/
def hardNext (s : State) : Option State :=
  match s.hard with
  | .armed clients => if s.deadline then some { s with hard := .cancelOps clients } else none
  | .cancelOps clients => some { s with opsDone := true, hard := .cancel clients }
  | .cancel clients => some { s with ctxDone := true, hard := .close clients }
  | .close (i :: todo) => if s.closed i then some { s with hard := .close todo } else none
  | .none | .close [] | .stopped => none

/-- `p.mu` is free and the scheduler takes subscriptions and marks. -/
def accepts (s : State) : Bool := s.mu = none && !s.stopped && !s.closing

/-- **One step of the node.** -/
def next (s : State) : Event → Option State
  | .open_ slot =>
    match s.users.reserve slot with
    | .error _ => none
    | .ok users => some { s with users, clients := s.clients ++ [{ slot }] }
  | .adopt i =>
    s.clients[i]?.bind fun c ↦
      if c.adopted then none
      else
        some { s with
          users := (s.users.adopt i c.slot c.closedChan).2
          clients := s.clients.set i { c with adopted := true } }
  | .set i input =>
    s.clients[i]?.bind fun c ↦
      if s.accepts && s.activeCtx c then
        let s' := { s.removeSub i with clients := s.clients.set i { c with subscribed := input.yes } }
        some (if input.yes && !s.reading i then s'.requeue i input.place else s')
      else none
  | .mark i place =>
    s.clients[i]?.bind fun c ↦
      if s.accepts && c.subscribed && !s.reading i then some (s.requeue i place) else none
  | .kick i =>
    s.clients[i]?.bind fun c ↦
      if s.activeCtx c then some { s with clients := s.clients.set i { c with drain := .kicked } }
      else none
  | .finishDrain i =>
    s.clients[i]?.bind fun c ↦
      if c.drain = .kicked ∧ s.mu = none then
        some ({ s with clients := s.clients.set i { c with drain := .drained } }.removeSub i)
      else none
  | .close i => s.clients[i]?.bind (s.closeNext i)
  | .dispatch input => s.dispatchNext input
  | .work k input => s.workers[k]?.bind fun w ↦ s.workNext k w input
  | .stopRun => some { s with runDone := true }
  | .shutdown => if s.pc = .idle then some { s with pc := .closing } else none
  | .main => s.mainNext
  | .hard => s.hardNext
  | .expire => some { s with deadline := true }

/-- **A job is stranded**: all the workers have exited, and the queue holds a job, or the dispatcher
is about to send one, whose operation is registered. -/
def Stranded (s : State) : Prop :=
  (∀ w ∈ s.workers, w.pc = .exited) ∧
    ((∃ job ∈ s.jobs, job.registered = true) ∨ ∃ i, s.dispatcher = .send i true)

end State

/-- The node as a transition system. -/
def refreshPool (limits : Limits) : System State Event :=
  System.guarded { users := UserMap.new limits } State.next

end Nexo.Gateway.RefreshPool
