import Nexo.Gateway.UserMap
import Nexo.Lib.Machine

/-!
# The life of a connection's slot

`Gateway.Handle` reserves a slot and hands it to an `upgradeReservation`, which several parties race
to settle by one compare-and-swap: the watcher that `watchUpgrade` starts (request completion,
`writeWait` or the end of the run context), `Handle` itself (a draining node, a synchronous upgrade
error) and the upgrade callback, which turns the reservation into a client. From then on the slot
belongs to `Adopt` and, once adopted, to the client's close.

Each party is a program counter of its connection; one move is one atomic step of one party. The
environment is unconstrained: a watcher may wake at any time after it was started, a callback may
run at any time after `Upgrade` was called (whatever `Upgrade` returns) or never, and a client may
be closed at any time after it was created. `given` is history: how often the slot was given back.
-/

namespace Nexo.Gateway

open Machine

/-- Where `Handle` stands. -/
inductive HandlePc where
  /-- the handshake is done, `Reserve` is next -/
  | start
  /-- returned: `Reserve` refused -/
  | rejected
  /-- in `watchUpgrade`, about to look at the run context -/
  | watch
  /-- in `watchUpgrade`, about to call `work.begin` -/
  | begin_
  /-- in `watchUpgrade`'s `release`, about to claim -/
  | earlyClaim
  /-- in `watchUpgrade`'s `release`, about to call `users.Release` -/
  | earlyRelease
  /-- about to ask `settledEarly` -/
  | check
  /-- about to call `Upgrade` -/
  | upgrade
  /-- in `Upgrade` -/
  | upgrading
  /-- `Upgrade` failed: in `release`, about to claim -/
  | errClaim
  /-- `Upgrade` failed: in `release`, about to call `users.Release` -/
  | errRelease
  | finished
  deriving DecidableEq

/-- Where the goroutine of `watchUpgrade` stands. -/
inductive WatcherPc where
  | none
  | waiting
  | claim
  | release
  | exited
  deriving DecidableEq

/-- Where the upgrade callback stands. -/
inductive CallbackPc where
  /-- `Upgrade` was not called -/
  | idle
  | pending
  /-- the reservation was settled before: the socket is dropped -/
  | refused
  /-- claimed, the client created, `Adopt` next -/
  | claimed
  | adopted
  /-- `Adopt` refused -/
  | failed
  deriving DecidableEq

/-- How far the client's `close`, which runs once, has come. -/
inductive ClosePc where
  /-- there is no client -/
  | none
  | opened
  /-- `cancelCtx` called -/
  | cancelled
  /-- `closing` set -/
  | marked
  /-- the channel `closed` is closed -/
  | closed
  /-- the queued bytes released -/
  | released
  /-- `Unregister` called -/
  | unregistered
  /-- the subscriptions removed, `close` returned -/
  | finished
  deriving DecidableEq

structure Conn where
  slot : Slot
  handle : HandlePc := .start
  watcher : WatcherPc := .none
  callback : CallbackPc := .idle
  close : ClosePc := .none
  settled : Bool := false
  given : ℕ := 0
  deriving DecidableEq

namespace Conn

/-- `upgradeReservation.claim`: the swap and, for the winner, the closing of `done`, which only
tells the watcher to leave. -/
def claim (c : Conn) (won lost : Conn → Conn) : Conn :=
  if c.settled then lost c else won { c with settled := true }

/-- Is the client's `closed` channel closed? -/
def closedChan (c : Conn) : Bool :=
  c.close = .closed || c.close = .released || c.close = .unregistered || c.close = .finished

/-- Was the slot reserved? -/
def reserved (c : Conn) : Bool := c.handle ≠ .start && c.handle ≠ .rejected

/-- Adopted, and not unregistered since. -/
def registered (c : Conn) : Bool :=
  c.callback = .adopted && c.close ≠ .unregistered && c.close ≠ .finished

/-- A reservation that is neither released nor adopted. -/
def pending (c : Conn) : Bool := c.reserved && c.given = 0 && c.callback ≠ .adopted

end Conn

/-- The moves of one connection's parties: each takes its next step. -/
inductive Move where
  /-- `ok` is what `Upgrade` returns, where that is the step -/
  | handle (ok : Bool)
  /-- `woken` tells whether the request's end, the timer or the run context woke the watcher, and
  not `done` -/
  | watcher (woken : Bool)
  | callback
  | close
  deriving DecidableEq

structure State where
  users : UserMap
  conns : List Conn := []
  /-- the run context is cancelled -/
  runDone : Bool := false
  /-- the work group is sealed -/
  sealed : Bool := false
  /-- what the calls of `UserMap.Close` returned -/
  snapshots : List (List ℕ) := []

namespace Conn

/-- One step of `Handle`. -/
def handleNext (s : State) (c : Conn) (ok : Bool) : Option (Conn × UserMap) :=
  match c.handle with
  | .start =>
    match s.users.reserve c.slot with
    | .error _ => some ({ c with handle := .rejected }, s.users)
    | .ok users => some ({ c with handle := .watch }, users)
  | .watch => some ({ c with handle := if s.runDone then .earlyClaim else .begin_ }, s.users)
  | .begin_ =>
    if s.sealed then some ({ c with handle := .earlyClaim }, s.users)
    else some ({ c with handle := .check, watcher := .waiting }, s.users)
  | .earlyClaim =>
    some (c.claim ({ · with handle := .earlyRelease }) ({ · with handle := .check }), s.users)
  | .earlyRelease =>
    some ({ c with handle := .check, given := c.given + 1 }, s.users.release c.slot)
  | .check => some ({ c with handle := if c.settled then .finished else .upgrade }, s.users)
  | .upgrade => some ({ c with handle := .upgrading, callback := .pending }, s.users)
  | .upgrading => some ({ c with handle := if ok then .finished else .errClaim }, s.users)
  | .errClaim =>
    some (c.claim ({ · with handle := .errRelease }) ({ · with handle := .finished }), s.users)
  | .errRelease =>
    some ({ c with handle := .finished, given := c.given + 1 }, s.users.release c.slot)
  | .rejected | .finished => none

/-- One step of the watcher. -/
def watcherNext (s : State) (c : Conn) (woken : Bool) : Option (Conn × UserMap) :=
  match c.watcher with
  | .waiting =>
    if woken then some ({ c with watcher := .claim }, s.users)
    else if c.settled then some ({ c with watcher := .exited }, s.users)
    else none
  | .claim =>
    some (c.claim ({ · with watcher := .release }) ({ · with watcher := .exited }), s.users)
  | .release =>
    some ({ c with watcher := .exited, given := c.given + 1 }, s.users.release c.slot)
  | .none | .exited => none

/-- One step of the upgrade callback, as far as the slot goes. -/
def callbackNext (s : State) (i : ℕ) (c : Conn) : Option (Conn × UserMap) :=
  match c.callback with
  | .pending =>
    some (c.claim ({ · with callback := .claimed, close := .opened })
      ({ · with callback := .refused }), s.users)
  | .claimed =>
    match s.users.adopt i c.slot c.closedChan with
    | (none, users) => some ({ c with callback := .adopted }, users)
    | (some _, users) => some ({ c with callback := .failed, given := c.given + 1 }, users)
  | .idle | .refused | .adopted | .failed => none

/-- One step of the client's `close`. -/
def closeNext (s : State) (i : ℕ) (c : Conn) : Option (Conn × UserMap) :=
  match c.close with
  | .opened => some ({ c with close := .cancelled }, s.users)
  | .cancelled => some ({ c with close := .marked }, s.users)
  | .marked => some ({ c with close := .closed }, s.users)
  | .closed => some ({ c with close := .released }, s.users)
  | .released =>
    let given := if i ∈ s.users.get c.slot.userId then c.given + 1 else c.given
    some ({ c with close := .unregistered, given }, s.users.unregister i c.slot)
  | .unregistered => some ({ c with close := .finished }, s.users)
  | .none | .finished => none

/-- **One move of connection `i`**: the connection and the registry after it. -/
def next (s : State) (i : ℕ) (c : Conn) : Move → Option (Conn × UserMap)
  | .handle ok => c.handleNext s ok
  | .watcher woken => c.watcherNext s woken
  | .callback => c.callbackNext s i
  | .close => c.closeNext s i

end Conn

/-- The steps of the node. -/
inductive Event where
  /-- a request of a user passes the handshake -/
  | arrive (slot : Slot)
  | move (i : ℕ) (m : Move)
  /-- `cancelRun` -/
  | cancelRun
  /-- `work.seal` -/
  | sealWork
  /-- `users.Close` -/
  | closeUsers
  deriving DecidableEq

/-- **One step of the node.** -/
def State.next (s : State) : Event → Option State
  | .arrive slot =>
    if slot.userId = "" then none else some { s with conns := s.conns ++ [{ slot }] }
  | .move i m =>
    match s.conns[i]? with
    | none => none
    | some c =>
      (c.next s i m).map fun (c', users) ↦ { s with conns := s.conns.set i c', users }
  | .cancelRun => some { s with runDone := true }
  | .sealWork => some { s with sealed := true }
  | .closeUsers =>
    some { s with users := s.users.close.2, snapshots := s.users.close.1 :: s.snapshots }

/-- The node as a transition system. -/
def lifecycle (limits : Limits) : System State Event :=
  System.guarded { users := UserMap.new limits } State.next

end Nexo.Gateway
