import Nexo.Errcode
import Nexo.Identity
import Nexo.Lib.Heap
import Mathlib.Data.Finset.Basic
import Mathlib.Data.List.AList
import Mathlib.Data.List.Destutter
import Mathlib.Data.List.Sort
import Mathlib.Data.Prod.Lex
import Mathlib.Data.String.Basic

/-!
# The presence scheduler

`gateway/presence.go`: a connection subscribes to the online state of some users under a revision of
its own. The scheduler keeps every active subscription either queued, with the time from which it
may be read again, or in flight; a dispatcher admits queued subscriptions to a pool of four workers,
and a finished read queues its subscription once more.

A pointer to an `onlineSubscription` is a number, and so is a `*Client`; the slot of a subscription
in the queue is kept by the queue (`Heap.index`). A Go map is an `AList`, or a `Finset` when it has
keys only. Every function here runs under `onlineSubs.mu`. Times are nanoseconds from the zero
`time.Time`.
-/

namespace Nexo.Gateway

open Errcode

def maxOnlineSubscriptions : ℕ := 100
def maxOnlineSubscriptionRefs : Int := 100000
def onlineSnapshotInterval : Int := 30 * 1000000000
def onlineStaleAfter : Int := 3 * onlineSnapshotInterval
def onlineRefreshMinInterval : Int := 1000000000
def onlineRefreshWorkers : ℕ := 4

/-- `onlineSubscriptionRequest` -/
structure SubscriptionRequest where
  revision : Int
  userIds : List String
  deriving DecidableEq

/-- `onlineSubscriptionAck` -/
structure SubscriptionAck where
  revision : Int
  snapshotIntervalMs : Int
  deriving DecidableEq

/-- `onlineSubscription`; `cancel` tells whether that field is set. -/
structure Subscription where
  client : ℕ
  revision : Int := 0
  userIds : List String := []
  cancel : Bool := false
  readyAt : Int := 0
  seq : ℕ := 0
  remark : Bool := false
  nextAttempt : Int := 0
  lastSuccess : Int := 0
  deriving DecidableEq

/-- `onlineRead`. Cancelling its context does not keep it from returning anything. -/
structure OnlineRead where
  sub : ℕ
  revision : Int
  userIds : List String
  deriving DecidableEq

/-- `onlineSnapshot` -/
structure OnlineSnapshot (ι : Type) where
  revision : Int
  items : List ι
  stale : Bool := false
  deriving DecidableEq

/-- What the scheduler uses and does not own. -/
structure OnlineEnv (L : Type) where
  /-- are `deps.Online` and `deps.User` set? -/
  available : Bool
  /-- `uuid.Parse` followed by `String()` -/
  uuidString : String → Option String
  /-- one token of the frame limiter: taken, or the delay after which the dispatcher, having
  cancelled the reservation, tries again -/
  reserve : L → Int → L × Option Int

/-- `onlineSubscriptions`, the contexts and fields of clients it looks at, and the reads that its
workers are busy with. -/
structure Presence (L : Type) where
  /-- the objects, of which the first `fresh` are allocated -/
  subs : ℕ → Subscription
  fresh : ℕ
  /-- `Client.onlineSub` -/
  onlineSub : ℕ → Option ℕ
  /-- is the client's `activeCtx` cancelled? -/
  done : ℕ → Bool
  /-- `Gateway.closing` -/
  closing : Bool
  active : AList fun _ : ℕ ↦ ℕ
  byUser : AList fun _ : String ↦ Finset ℕ
  due : Heap ℕ
  seq : ℕ
  reads : Int
  refs : Int
  stopped : Bool
  jobs : List OnlineRead
  /-- is there a token in the channel `wake`? -/
  wake : Bool
  frames : L
  running : List OnlineRead

namespace Presence

variable {L : Type} (env : OnlineEnv L)

/-- `newOnlineSubscriptions` -/
def new (frames : L) : Presence L where
  subs _ := { client := 0 }
  fresh := 0
  onlineSub _ := none
  done _ := false
  closing := false
  active := ∅
  byUser := ∅
  due := Heap.empty 0
  seq := 0
  reads := 0
  refs := 0
  stopped := false
  jobs := []
  wake := false
  frames := frames
  running := []

/-- `onlineDue.Less` compares these. -/
def key (subs : ℕ → Subscription) (i : ℕ) : Int ×ₗ ℕ := toLex ((subs i).readyAt, (subs i).seq)

/-- Write to a subscription. -/
def write (p : Presence L) (i : ℕ) (s : Subscription) : Presence L :=
  { p with subs := Function.update p.subs i s }

/-- `onlineSubscriptions.notify` -/
def notify (p : Presence L) : Presence L := { p with wake := true }

/-- The end of `requeue`: only a new head changes what the dispatcher does next. -/
def notifyHead (p : Presence L) (i : ℕ) : Presence L := if p.due.index i = 0 then p.notify else p

/-- `onlineSubscriptions.requeue` -/
def requeue (p : Presence L) (i : ℕ) (time : Int) : Presence L :=
  let s := p.subs i
  let time := if time < s.nextAttempt then s.nextAttempt else time
  if p.due.Has i then
    if s.readyAt ≤ time then p
    else
      let p := p.write i { s with readyAt := time }
      notifyHead { p with due := p.due.fix (key p.subs) (p.due.index i).toNat } i
  else
    let p := p.write i { s with readyAt := time, seq := p.seq }
    notifyHead { p with due := p.due.push (key p.subs) i, seq := p.seq + 1 } i

/-- `onlineSubscriptions.mark` -/
def mark (p : Presence L) (s : Option ℕ) (now : Int) : Presence L :=
  match s with
  | none => p
  | some i =>
    if (p.subs i).cancel then p.write i { p.subs i with remark := true } else p.requeue i now

/-- `delete(p.byUser[id], client)`, and the entry with it when nobody is left. -/
def unwatch (client : ℕ) (byUser : AList fun _ : String ↦ Finset ℕ) (id : String) :
    AList fun _ : String ↦ Finset ℕ :=
  match byUser.lookup id with
  | none => byUser
  | some clients =>
    if clients.erase client = ∅ then byUser.erase id else byUser.insert id (clients.erase client)

/-- `p.byUser[id][client] = struct{}{}`, in a new entry if there is none. -/
def watch (client : ℕ) (byUser : AList fun _ : String ↦ Finset ℕ) (id : String) :
    AList fun _ : String ↦ Finset ℕ :=
  byUser.insert id (insert client ((byUser.lookup id).getD ∅))

/-- The first half of `remove`: the pending marker. -/
def unmark (p : Presence L) (i : ℕ) : Presence L :=
  { p.write i { p.subs i with remark := false } with
    due := if p.due.Has i then p.due.remove (key p.subs) (p.due.index i).toNat else p.due }

/-- The second half of `remove`: the references. -/
def unregister (p : Presence L) (i : ℕ) : Presence L :=
  let s := p.subs i
  match p.active.lookup s.client with
  | none => p
  | some _ =>
    { p with
      active := p.active.erase s.client
      refs := p.refs - s.userIds.length
      byUser := s.userIds.foldl (unwatch s.client) p.byUser }

/-- `onlineSubscriptions.remove` -/
def remove (p : Presence L) (i : ℕ) : Presence L := (p.unmark i).unregister i

/-- `slices.Sort` and `slices.Compact` -/
def sortCompact (ids : List String) : List String := (ids.insertionSort (· ≤ ·)).destutter (· ≠ ·)

/-- In `setOnlineSubscriptions`: subscription `i` gets a new revision and set. -/
def replace (p : Presence L) (c i : ℕ) (revision : Int) (ids : List String) : Presence L :=
  { p.write i { p.subs i with revision, userIds := ids, lastSuccess := 0 } with
    onlineSub := Function.update p.onlineSub c (some i) }

/-- In `setOnlineSubscriptions`: the references of a set that is not empty. -/
def register (p : Presence L) (c i : ℕ) (ids : List String) : Presence L :=
  { p with
    active := p.active.insert c i
    refs := p.refs + ids.length
    byUser := ids.foldl (watch c) p.byUser }

/-- The part of `setOnlineSubscriptions` that changes the state. -/
def subscribe (p : Presence L) (c i : ℕ) (revision : Int) (ids : List String) (now : Int) :
    Presence L :=
  let p := (p.remove i).replace c i revision ids
  if ids = [] then p else (p.register c i ids).mark (some i) now

/-- `Gateway.setOnlineSubscriptions` -/
def setOnlineSubscriptions (p : Presence L) (c : ℕ) (req : SubscriptionRequest) (now : Int) :
    (SubscriptionAck × Option Err) × Presence L :=
  let ack : SubscriptionAck :=
    { revision := req.revision, snapshotIntervalMs := onlineSnapshotInterval / 1000000 }
  if ¬ env.available then
    ((ack, some (errInvalidProtocol.withMessage "online subscriptions unavailable")), p)
  else if req.revision ≤ 0 ∨ req.userIds.length > maxOnlineSubscriptions then
    ((ack, some (errInvalidParam.withMessage
      "positive revision and at most 100 user_ids required")), p)
  else
    match req.userIds.find? fun id ↦ !Identity.valid env.uuidString id with
    | some id => ((ack, some (errInvalidParam.withMessage ("invalid user id: " ++ id))), p)
    | none =>
      let ids := sortCompact req.userIds
      if p.stopped ∨ p.closing then ((ack, some errNodeDraining), p)
      else if p.done c then ((ack, some errConnClosed), p)
      else
        -- a new object is kept only when the request is accepted
        let i := (p.onlineSub c).getD p.fresh
        let s : Subscription := if (p.onlineSub c).isSome then p.subs i else { client := c }
        if req.revision < s.revision then
          ((ack, some (errInvalidParam.withMessage "old subscription revision")), p)
        else if req.revision = s.revision then
          if ids ≠ s.userIds then
            ((ack, some (errInvalidParam.withMessage "revision already used for another set")), p)
          else ((ack, none), p)
        else if p.refs - s.userIds.length + ids.length > maxOnlineSubscriptionRefs then
          ((ack, some errTooManyRequests), p)
        else
          let p := { p.write i s with fresh := if (p.onlineSub c).isSome then p.fresh else p.fresh + 1 }
          ((ack, none), p.subscribe c i req.revision ids now)

/-- `Gateway.removeOnlineSubscriptions` -/
def removeOnlineSubscriptions (p : Presence L) (c : ℕ) : Presence L :=
  match p.onlineSub c with
  | none => p
  | some i => { p.remove i with onlineSub := Function.update p.onlineSub c none }

/-- `Gateway.markOnlineChanged`: `visits` are the clients of `byUser[id]` for each id in turn, in
the order in which the map yields them. -/
def markOnlineChanged (p : Presence L) (visits : List (List ℕ)) (now : Int) : Presence L :=
  if p.stopped ∨ p.closing then p
  else visits.flatten.foldl (fun p c ↦ p.mark (p.active.lookup c) now) p

/-- What the dispatcher does with the head of the queue once it has a token. The channel `jobs` is
as deep as there are workers; a full one would block the send. -/
def admitHead (p : Presence L) (now : Int) (frames : L) : Option (Presence L) :=
  let i := p.due.slot 0
  let s := p.subs i
  if p.jobs.length ≥ onlineRefreshWorkers then none
  else
    let due := p.due.pop (key p.subs)
    some { p.write i
        { s with cancel := true, remark := false, nextAttempt := now + onlineRefreshMinInterval } with
      frames
      jobs := p.jobs ++ [{ sub := i, revision := s.revision, userIds := s.userIds }]
      due
      reads := p.reads + 1 }

/-- How a turn of the loop of `dispatchOnline` ends. -/
inductive Turn (L : Type) where
  /-- the loop returns how long to wait, zero for no time limit -/
  | done (p : Presence L) (wait : Int)
  | admitted (p : Presence L)
  /-- the send to `jobs` blocks -/
  | blocked

/-- One turn of the loop of `dispatchOnline`. -/
def turn (now : Int) (p : Presence L) : Turn L :=
  if p.due.len = 0 then .done p 0
  else
    let d := (p.subs (p.due.slot 0)).readyAt - now
    if 0 < d then .done p d
    else if p.reads = onlineRefreshWorkers then .done p 0
    else
      match env.reserve p.frames now with
      | (frames, some d) => .done { p with frames } d
      | (frames, none) =>
        match p.admitHead now frames with
        | none => .blocked
        | some p => .admitted p

/-- The loop of `dispatchOnline`, which takes an element off the queue at every turn it goes on. -/
def dispatchLoop (now : Int) : ℕ → Presence L → Option (Presence L × Int)
  | 0, p => some (p, 0)
  | n + 1, p =>
    match p.turn env now with
    | .done p d => some (p, d)
    | .admitted p => dispatchLoop now n p
    | .blocked => none

/-- `Gateway.dispatchOnline`: `none` when it blocks. -/
def dispatchOnline (p : Presence L) (now : Int) : Option (Presence L × Int) :=
  if p.closing ∨ p.stopped then some (p, 0) else dispatchLoop env now p.due.len p

/-- Does a finished read of subscription `i` find it active and current? -/
def adopts (p : Presence L) (i : ℕ) : Bool :=
  !p.stopped && !p.closing && !p.done (p.subs i).client &&
    p.onlineSub (p.subs i).client = some i && (p.subs i).userIds ≠ []

/-- In `finishOnlineRead`: the next read is queued before the revision is looked at. -/
def rearm (p : Presence L) (i : ℕ) (now : Int) : Presence L :=
  (p.write i { p.subs i with remark := false }).requeue i
    (if (p.subs i).remark then now else now + onlineSnapshotInterval)

/-- The way out of `finishOnlineRead`: the slot is freed before the dispatcher is woken. -/
def freeSlot (p : Presence L) : Presence L := { p with reads := p.reads - 1 }.notify

/-- `Gateway.finishOnlineRead`, up to the frame that it hands to `queueOnlineSnapshot`; `result` is
`none` for a failed read. -/
def finishOnlineRead {ι : Type} (p : Presence L) (job : OnlineRead) (result : Option (List ι))
    (now : Int) : Presence L × Option (OnlineSnapshot ι) :=
  let i := job.sub
  let p := p.write i { p.subs i with cancel := false }
  if ¬ p.adopts i then (p.freeSlot, none)
  else
    let p := p.rearm i now
    let s := p.subs i
    if s.revision ≠ job.revision then (p.freeSlot, none)
    else
      match result with
      | none =>
        if s.lastSuccess = 0 ∨ now - s.lastSuccess < onlineStaleAfter then (p.freeSlot, none)
        else (p.freeSlot, some { revision := s.revision, items := [], stale := true })
      | some items =>
        ((p.write i { s with lastSuccess := now }).freeSlot, some { revision := s.revision, items })

/-- A turn of the loop with which `runOnlineSubscriptions` returns. -/
def drop (p : Presence L) (c : ℕ) : Presence L :=
  match p.active.lookup c with
  | none => p
  | some i => { p.remove i with onlineSub := Function.update p.onlineSub c none }

/-- The exit of `runOnlineSubscriptions`; `order` is that in which the map yields the clients. -/
def stop (p : Presence L) (order : List ℕ) : Presence L :=
  order.foldl drop { p with stopped := true }

end Presence

end Nexo.Gateway
