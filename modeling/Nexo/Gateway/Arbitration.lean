import Nexo.Gateway.Lifecycle

/-!
# Who stays when a user logs in again

`gateway/kick.go`, `publishKick` and the client's `close`, on a node without a bus and before
`Shutdown`: a connection that opens drains the other connections of its user and platform that hold
another token. It looks its candidates up in the registry first and then takes `kickMu`, under which
it makes sure that it is still active itself.

A step is a call of the registry, a section under `kickMu` or one of the other steps of `close`. The
contexts of a connection are cancelled under `kickMu` only, by its `close` and its drain; both may
begin at any time after the client was created, for whatever reason. What `finishDrain` does to a
target besides (it ends its subscriptions, has a last frame sent and the connection closed) only
makes the close begin.
-/

namespace Nexo.Gateway.Arbitration

open Machine

/-- Where the upgrade callback stands, once it has created the client. -/
inductive Pc where
  /-- `Adopt` is next -/
  | created
  /-- `Adopt` refused -/
  | refused
  /-- adopted; `onlineAdd` and the first look at the context are next -/
  | adopted
  /-- in `kick`, about to call `users.Get` -/
  | lookup
  /-- about to take `kickMu` -/
  | found (clients : List ℕ)
  /-- after the section; these targets' `finishDrain` is to come -/
  | finishing (targets : List ℕ)
  /-- `publishKick` returned -/
  | returned
  deriving DecidableEq

structure Client where
  slot : Slot
  platformId : Int
  pc : Pc := .created
  close : ClosePc := .opened
  draining : Bool := false
  deriving DecidableEq

namespace Client

/-- `connCtx` is done. -/
def closed (c : Client) : Bool := c.close ≠ .opened

/-- `activeCtx` is not done. -/
def active (c : Client) : Bool := !c.closed && !c.draining

/-- The channel `closed` is closed. -/
def closedChan (c : Client) : Bool :=
  c.close = .closed || c.close = .released || c.close = .unregistered || c.close = .finished

/-- `beginDrain`: the client after it, if it returns true. -/
def beginDrain (c : Client) : Option Client :=
  if c.closed || c.draining then none else some { c with draining := true }

end Client

/-- The loop of `kick` under `kickMu`: the targets, and the clients after it. -/
def kickLoop (platformId : Int) (keepTokenId : String) :
    List ℕ → List Client → List ℕ × List Client
  | [], clients => ([], clients)
  | j :: js, clients =>
    match clients[j]? with
    | none => kickLoop platformId keepTokenId js clients
    | some c =>
      if c.platformId = platformId ∧ c.slot.tokenId ≠ keepTokenId then
        match c.beginDrain with
        | none => kickLoop platformId keepTokenId js clients
        | some c' =>
          let (targets, clients') := kickLoop platformId keepTokenId js (clients.set j c')
          (j :: targets, clients')
      else kickLoop platformId keepTokenId js clients

structure State where
  users : UserMap
  clients : List Client := []

inductive Event where
  /-- a reserved slot is claimed by the upgrade callback, which creates the client -/
  | open_ (slot : Slot) (platformId : Int)
  /-- the next step of a callback -/
  | callback (i : ℕ)
  /-- the next step of a client's `close` -/
  | close (i : ℕ)
  /-- the section under `kickMu` of `closeAfterFlush` -/
  | drain (i : ℕ)
  deriving DecidableEq

/-- One step of the upgrade callback of client `i`. -/
def callbackNext (s : State) (i : ℕ) (c : Client) : Option State :=
  match c.pc with
  | .created =>
    match s.users.adopt i c.slot c.closedChan with
    | (none, users) => some { users, clients := s.clients.set i { c with pc := .adopted } }
    | (some _, users) => some { users, clients := s.clients.set i { c with pc := .refused } }
  | .adopted =>
    some { s with clients := s.clients.set i { c with pc := if c.active then .lookup else .returned } }
  | .lookup =>
    some { s with clients := s.clients.set i { c with pc := .found (s.users.get c.slot.userId) } }
  | .found candidates =>
    if c.active then
      let (targets, clients) := kickLoop c.platformId c.slot.tokenId candidates s.clients
      some { s with clients := clients.set i { c with pc := .finishing targets } }
    else some { s with clients := s.clients.set i { c with pc := .returned } }
  | .finishing (_ :: targets) =>
    some { s with clients := s.clients.set i { c with pc := .finishing targets } }
  | .finishing [] => some { s with clients := s.clients.set i { c with pc := .returned } }
  | .refused | .returned => none

/-- One step of the `close` of client `i`. -/
def closeNext (s : State) (i : ℕ) (c : Client) : Option State :=
  let goes (close : ClosePc) : List Client := s.clients.set i { c with close }
  match c.close with
  | .opened => some { s with clients := goes .cancelled }
  | .cancelled => some { s with clients := goes .marked }
  | .marked => some { s with clients := goes .closed }
  | .closed => some { s with clients := goes .released }
  | .released => some { users := s.users.unregister i c.slot, clients := goes .unregistered }
  | .unregistered => some { s with clients := goes .finished }
  | .none | .finished => none

/-- **One step of the node.** -/
def State.next (s : State) : Event → Option State
  | .open_ slot platformId =>
    match s.users.reserve slot with
    | .error _ => none
    | .ok users => some { users, clients := s.clients ++ [{ slot, platformId }] }
  | .callback i => s.clients[i]?.bind (callbackNext s i)
  | .close i => s.clients[i]?.bind (closeNext s i)
  | .drain i =>
    s.clients[i]?.bind fun c ↦ c.beginDrain.map fun c' ↦ { s with clients := s.clients.set i c' }

/-- The node as a transition system. -/
def arbitration (limits : Limits) : System State Event :=
  System.guarded { users := UserMap.new limits } State.next

end Nexo.Gateway.Arbitration
