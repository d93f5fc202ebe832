import Nexo.Gateway.Lifecycle
import Nexo.Gateway.Presence
import Nexo.Onlinestore.Redis

/-!
# Who writes to the online store

`gateway/gateway.go`: `onlineAdd`, `onlineRemove` and `renew`. Each takes the presence lock of the
node for its calls of the store and gives it back before it announces the users whose presence
changed. The store may answer as it likes; whether it has done what it was asked is what its answer
says.

A step is one look at a context, one call or return of the store, or one move of the lock. The
context of an operation may end at any time, for whatever reason, so the environment says at each
look whether it has; `activeCtx` of a client is the state's own. A client stops being active when it
begins to close, when it is drained, or with the context of the gateway, and never becomes active
again. `onlineAdded` is read and written under the lock only, and is written together with the
return of the call that it is about.

`log` is history: the calls of the store, their answers and what was announced, the last one first.
-/

namespace Nexo.Gateway.OnlineWrites

open Machine Onlinestore

/-- Where the upgrade callback stands. -/
inductive CallbackPc where
  /-- the client is created, `Adopt` is next -/
  | created
  | adopted
  | refused
  /-- `onlineAdd` is called -/
  | entered
  deriving DecidableEq

structure Client where
  slot : Slot
  ref : ConnRef
  callback : CallbackPc := .created
  /-- `activeCtx` is not done -/
  active : Bool := true
  close : ClosePc := .opened
  /-- `remove`, which runs once, has begun -/
  removing : Bool := false
  onlineAdded : Bool := false
  deriving DecidableEq

/-- The channel `closed` is closed. -/
def Client.closedChan (c : Client) : Bool :=
  c.close = .closed || c.close = .released || c.close = .unregistered || c.close = .finished

inductive Kind where
  | add (i : ℕ)
  | remove (i : ℕ)
  | renew
  deriving DecidableEq

/-- Where an operation stands. -/
inductive Pc where
  /-- in `lockPresence`, about to take the lock -/
  | lock
  /-- in `lockPresence`, with the lock -/
  | locked
  /-- `onlineAdd`: about to look at `activeCtx` -/
  | check
  /-- `renew`: about to call `users.All` -/
  | snapshot
  /-- `renew`: filtering its clients, of which these are left -/
  | filter (clients todo : List ℕ) (refs : List ConnRef)
  /-- `renew`: about to call `Renew` -/
  | renew (clients : List ℕ) (refs : List ConnRef)
  | renewing (clients : List ℕ)
  /-- about to call `addOnline` for each of these -/
  | each (todo : List ℕ) (changed : List String)
  /-- in `addOnline`, about to call `Add` -/
  | add (i : ℕ) (todo : List ℕ) (changed : List String)
  | adding (i : ℕ) (todo : List ℕ) (changed : List String)
  /-- `onlineRemove`: about to call `Remove` -/
  | remove
  | removing
  /-- about to give the lock back -/
  | unlock (users : List String)
  | publish (users : List String)
  | done
  deriving DecidableEq

structure Op where
  kind : Kind
  pc : Pc := .lock
  deriving DecidableEq

/-- What the operations have done: the first argument is the operation. -/
inductive Act where
  | add (k : ℕ) (ref : ConnRef)
  | added (k : ℕ) (ref : ConnRef)
  | renew (k : ℕ) (refs : List ConnRef)
  | revived (k : ℕ) (refs : List ConnRef)
  | remove (k : ℕ) (ref : ConnRef)
  | removed (k : ℕ) (ref : ConnRef)
  | published (k : ℕ) (users : List String)
  deriving DecidableEq

structure State where
  users : UserMap
  clients : List Client := []
  ops : List Op := []
  /-- the operation whose token is in the channel `presence` -/
  presence : Option ℕ := none
  log : List Act := []

/-- What the environment decides at a step of an operation. -/
inductive Input where
  | go
  /-- whether the context of the operation is not done -/
  | ctx (live : Bool)
  /-- the clients of `users.All`, in the order in which the map yields them -/
  | order (clients : List ℕ)
  /-- whether the store has done it -/
  | answer (ok : Bool)
  /-- what `Renew` returns -/
  | revived (refs : Option (List ConnRef))
  deriving DecidableEq

inductive Event where
  | open_ (slot : Slot) (ref : ConnRef)
  | adopt (i : ℕ)
  /-- the callback enters `onlineAdd` -/
  | onlineAdd (i : ℕ)
  /-- a drain, or the end of the gateway's context -/
  | cancel (i : ℕ)
  /-- the next step of a client's `close` -/
  | close (i : ℕ)
  /-- `remove`; `go` tells whether there is room in `cleanup` and a context that is not done -/
  | remove (i : ℕ) (go : Bool)
  /-- a tick of `renewLoop` -/
  | renew
  /-- the next step of an operation -/
  | op (k : ℕ) (input : Input)
  deriving DecidableEq

/-- What a step of an operation leaves: where the operation stands, the lock, the clients, and what
it did. -/
structure Outcome where
  pc : Pc
  presence : Option ℕ
  clients : List Client
  act : Option Act := none

/-- `withPresenceLock` begins its function. -/
def Kind.enter : Kind → Pc
  | .add _ => .check
  | .remove _ => .remove
  | .renew => .snapshot

/-- One step of operation `k`. -/
def Op.next (s : State) (k : ℕ) (op : Op) (input : Input) : Option Outcome :=
  let goes (pc : Pc) : Option Outcome := some ⟨pc, s.presence, s.clients, none⟩
  let does (pc : Pc) (act : Act) : Option Outcome := some ⟨pc, s.presence, s.clients, some act⟩
  match op.pc, input with
  | .lock, .ctx true => if s.presence = none then some ⟨.locked, some k, s.clients, none⟩ else none
  | .lock, .ctx false => goes .done
  | .locked, .ctx live => goes (if live then op.kind.enter else .unlock [])
  | .check, .go =>
    match op.kind with
    | .add i => s.clients[i]?.bind fun c ↦ goes (if c.active then .each [i] [] else .unlock [])
    | _ => none
  | .snapshot, .order clients =>
    if clients.Perm s.users.all then goes (.filter clients clients []) else none
  | .filter clients (i :: todo) refs, .go =>
    s.clients[i]?.bind fun c ↦ goes (.filter clients todo (if c.active then refs ++ [c.ref] else refs))
  | .filter clients [] refs, .go => goes (.renew clients refs)
  | .renew clients refs, .go => does (.renewing clients) (.renew k refs)
  | .renewing _, .revived none => goes (.unlock [])
  | .renewing clients, .revived (some refs) =>
    does (.each clients (refs.map ConnRef.userId)) (.revived k refs)
  | .each (i :: todo) changed, .go =>
    s.clients[i]?.bind fun c ↦
      goes (if c.onlineAdded || !c.active then .each todo changed else .add i todo changed)
  | .each [] changed, .go => goes (.unlock changed)
  | .add i todo changed, .go =>
    s.clients[i]?.bind fun c ↦ does (.adding i todo changed) (.add k c.ref)
  | .adding _ todo changed, .answer false => goes (.each todo changed)
  | .adding i todo changed, .answer true =>
    s.clients[i]?.bind fun c ↦
      some ⟨.each todo (changed ++ [c.ref.userId]), s.presence,
        s.clients.set i { c with onlineAdded := true }, some (.added k c.ref)⟩
  | .remove, .go =>
    match op.kind with
    | .remove i => s.clients[i]?.bind fun c ↦ does .removing (.remove k c.ref)
    | _ => none
  | .removing, .answer false => goes (.unlock [])
  | .removing, .answer true =>
    match op.kind with
    | .remove i =>
      s.clients[i]?.bind fun c ↦
        some ⟨.unlock [c.ref.userId], s.presence, s.clients.set i { c with onlineAdded := false },
          some (.removed k c.ref)⟩
    | _ => none
  | .unlock users, .go => some ⟨.publish users, none, s.clients, none⟩
  | .publish [], .go => goes .done
  | .publish users, .go => does .done (.published k (Presence.sortCompact users))
  | _, _ => none

/-- One step of the `close` of client `i`. -/
def closeNext (s : State) (i : ℕ) (c : Client) : Option State :=
  let goes (close : ClosePc) : List Client := s.clients.set i { c with close }
  match c.close with
  | .opened => some { s with clients := s.clients.set i { c with close := .cancelled, active := false } }
  | .cancelled => some { s with clients := goes .marked }
  | .marked => some { s with clients := goes .closed }
  | .closed => some { s with clients := goes .released }
  | .released => some { s with users := s.users.unregister i c.slot, clients := goes .unregistered }
  | .unregistered => some { s with clients := goes .finished }
  | .none | .finished => none

/-- **One step of the node.** -/
def State.next (s : State) : Event → Option State
  | .open_ slot ref =>
    -- `uuid.NewV7` gives no id twice
    if ref.userId = slot.userId ∧ ∀ c ∈ s.clients, c.ref.connId ≠ ref.connId then
      match s.users.reserve slot with
      | .error _ => none
      | .ok users => some { s with users, clients := s.clients ++ [{ slot, ref }] }
    else none
  | .adopt i =>
    s.clients[i]?.bind fun c ↦
      if c.callback = .created then
        match s.users.adopt i c.slot c.closedChan with
        | (none, users) =>
          some { s with users, clients := s.clients.set i { c with callback := .adopted } }
        | (some _, users) =>
          some { s with users, clients := s.clients.set i { c with callback := .refused } }
      else none
  | .onlineAdd i =>
    s.clients[i]?.bind fun c ↦
      if c.callback = .adopted then
        some { s with
          clients := s.clients.set i { c with callback := .entered }
          ops := s.ops ++ [{ kind := .add i }] }
      else none
  | .cancel i =>
    s.clients[i]?.map fun c ↦ { s with clients := s.clients.set i { c with active := false } }
  | .close i => s.clients[i]?.bind (closeNext s i)
  | .remove i go =>
    s.clients[i]?.bind fun c ↦
      if c.close = .finished ∧ c.removing = false then
        some { s with
          clients := s.clients.set i { c with removing := true }
          ops := if go then s.ops ++ [{ kind := .remove i }] else s.ops }
      else none
  | .renew => some { s with ops := s.ops ++ [{ kind := .renew }] }
  | .op k input =>
    s.ops[k]?.bind fun op ↦ (op.next s k input).map fun o ↦
      { s with
        clients := o.clients
        ops := s.ops.set k { op with pc := o.pc }
        presence := o.presence
        log := o.act.toList ++ s.log }

/-- The node as a transition system. -/
def onlineWrites (limits : Limits) : System State Event :=
  System.guarded { users := UserMap.new limits } State.next

end Nexo.Gateway.OnlineWrites
