import Nexo.Lib.Goroutine

/-!
# The goroutines of the gateway, and `Shutdown`

What the goroutines of `gateway/` do with the work group (`work.go`) and with the dependencies of
the gateway, function by function. A function is a block that `leave` returns from. Conditions on
anything else (the closing flag, the contexts, the registry, the presence lock, what a dependency
returns, which dependencies there are) are left open, so that every goroutine may take either side
of them at any time. The one context that is followed is that of `work.op`: when it was not
registered it is cancelled from the start, and `ctx.Err()` says so. Steps that touch neither the
group nor a dependency are not shown; a timer is a goroutine, which may take its time.

`Shutdown` itself goes statement by statement, with the function that its context's end starts, the
goroutine that waits for the group and the one that calls `PurgeNode`.
-/

namespace Nexo.Gateway.Shutdown

open Goroutine Machine

/-- The calls of the dependencies. -/
inductive Call where
  | add | remove | renew | purgeNode
  | publish | subscribe
  | maxSeqs | pull | send | invalidateGroup | resolvePush | recipients | visibleTo
  | markRead | getConversation
  | onlineStatus
  | check
  deriving DecidableEq

/-! ### Operations -/

/-- `ctx.Err() != nil`, of the context of an operation -/
def ctxErr (registered : Bool) (yes no : Code Call) : Code Call :=
  if registered then .choose yes no else yes

/-- The function that `work.op` returns: it gives the unit back, if there is one. -/
def finish (registered : Bool) (k : Code Call) : Code Call := if registered then .done k else k

/-- `lockPresence`: the lock is taken and the context looked at, or the context is done first. -/
def lockPresence (registered : Bool) (yes no : Code Call) : Code Call := .choose (ctxErr registered no yes) no

/-- `publishOnlineChanged`: no users, no bus, or a publish for each chunk. -/
def publishOnlineChanged : Code Call :=
  .choose .leave <| .choose .leave <| .loop (.choose (.call .publish .again) .leave) .leave

/-- `addOnline` -/
def addOnline (added not : Code Call) : Code Call := .choose not <| .call .add <| .choose added not

/-- `Gateway.onlineAdd` -/
def onlineAdd : Code Call :=
  .choose .leave <|
  .op fun registered ↦
    lockPresence registered
      (.choose (finish registered .leave) <|
        addOnline
          (.op fun registered' ↦
            .loop publishOnlineChanged <| finish registered' <| finish registered .leave)
          (finish registered .leave))
      (finish registered .leave)

/-- The goroutine of `onlineRemove` -/
def remover (registered : Bool) : Code Call :=
  lockPresence registered
    (.call .remove <|
      .choose (finish registered .exit) <| .loop publishOnlineChanged <| finish registered .exit)
    (finish registered .exit)

/-- `Gateway.onlineRemove`: no store, no room in `cleanup`, or an operation. -/
def onlineRemove : Code Call :=
  .choose .leave <| .choose .leave <|
  .op fun registered ↦
    ctxErr registered (finish registered .leave) (.spawn registered (remover registered) .leave)

/-- `Client.Close`; `remove` runs once. -/
def close : Code Call := .choose .leave <| .loop onlineRemove .leave

/-- `Client.Send` and `Client.Push`: a full queue closes the client. -/
def send : Code Call := .choose .leave <| .loop close .leave

/-- The timer of `finishDrain`, which may be stopped. -/
def drainTimer : Code Call := .choose .exit <| .loop close .exit

/-- `Client.finishDrain` -/
def finishDrain : Code Call := .spawn false drainTimer <| .choose .leave <| .loop send .leave

/-- `Gateway.kick` -/
def kick : Code Call := .loop (.choose .leave <| .loop finishDrain .again) .leave

/-- `Gateway.publishKick` -/
def publishKick : Code Call :=
  .choose .leave <|
  .choose (.loop kick .leave) <|
  .op fun registered ↦
    ctxErr registered (finish registered .leave) <|
      .call .publish <|
        .choose (finish registered .leave) <| .loop kick <| finish registered .leave

/-! ### Connections -/

/-- `Gateway.handle`: requests that ask no dependency, and the others. -/
def handle : Code Call :=
  .choose .leave <|
  .choose (.call .maxSeqs .leave) <|
  .choose (.call .pull .leave) <|
  .choose (.call .send .leave) <|
  .choose (.call .markRead .leave) <|
  .call .getConversation .leave

/-- The goroutine of `admit` -/
def handler : Code Call := .loop handle <| .loop send <| .done .exit

/-- `Client.overLimit` -/
def overLimit : Code Call := .loop send <| .choose .leave <| .loop close .leave

/-- `Client.admit`, in the loop of `readLoop` -/
def admit_ : Code Call :=
  .choose .leave <|
  .choose (.loop overLimit <| .choose .again .leave) <|
  .choose (.loop send .again) <|
  .choose (.loop send <| .loop finishDrain .again) <|
  .enter (.spawn true handler .again) .leave

/-- `Client.readLoop` -/
def readLoop : Code Call := .loop (.choose .leave admit_) <| .loop close .exit

/-- `Client.writeLoop` -/
def writeLoop : Code Call := .loop (.choose .again .leave) <| .choose .exit <| .loop close .exit

/-- `Client.recheckLoop`, with `tokenDead` -/
def recheckLoop : Code Call :=
  .loop (.choose .leave <| .choose .again <| .call .check <| .choose .again .leave) <|
    .choose .exit <| .loop finishDrain .exit

/-- `Client.Serve` -/
def serve : Code Call :=
  .enter (.both readLoop (.both writeLoop recheckLoop .exit) <| .done .leave) (.loop close .leave)

/-- The upgrade callback of `Handle`: not claimed, refused by `Adopt`, or served. -/
def upgrade : Code Call :=
  .choose .exit <|
  .choose (.loop close .exit) <|
  .loop onlineAdd <| .loop publishKick <| .loop serve .exit

/-- `watchUpgrade` -/
def watchUpgrade : Code Call := .choose .exit <| .enter (.spawn true (.done .exit) .exit) .exit

/-! ### Pools and loops -/

/-- A worker of `startPool`: what is queued when the context ends still runs. -/
def worker (take : Code Call → Code Call) : Code Call :=
  .loop (take .leave) <| .loop (take .leave) <| .done .exit

/-- `startPool`: one goroutine after the other, until all are there or the group is sealed. -/
def startPool (w : Code Call) : Code Call :=
  .loop (.choose .leave <| .enter (.spawn true w .again) .leave) .leave

/-- `deliverOne` and `Deliver` -/
def deliverOne : Code Call :=
  .call .resolvePush <| .choose .leave <|
  .call .recipients <| .choose .leave <|
  .call .visibleTo <| .choose .leave <|
  .loop (.choose .leave <| .loop send .again) .leave

/-- `startDeliver` -/
def startDeliver : Code Call :=
  .choose .leave <| .loop (startPool <| worker fun stop ↦ .choose (.loop deliverOne .again) stop) .leave

/-- `readOnline`, with `finishOnlineRead` -/
def readOnline (registered : Bool) (k : Code Call) : Code Call :=
  .loop (ctxErr registered .leave <| .call .onlineStatus .leave) <|
    finish registered <| .choose k <| .loop close k

/-- `runOnlineSubscriptions`: a job for each turn of `dispatchOnline` -/
def dispatcher : Code Call :=
  .loop (.choose .leave <| .op fun registered ↦ .send registered .again) <| .done .exit

/-- `startOnlineSubscriptions` -/
def startOnlineSubscriptions : Code Call :=
  .choose .leave <|
  .loop (startPool <| worker fun stop ↦ .recv (fun registered ↦ readOnline registered .again) stop) <|
  .enter (.spawn true dispatcher .leave) .leave

/-- `Gateway.renew`; its context is not one of `work.op` and may end at any time. -/
def renew : Code Call :=
  lockPresence true
    (.call .renew <| .choose .leave <|
      .loop (.choose .leave <| addOnline .again .again) <| .loop publishOnlineChanged .leave)
    .leave

/-- `renewLoop` -/
def renewLoop : Code Call := .loop (.choose .leave <| .loop renew .again) .exit

/-- The events that `Bus.Subscribe` hands to `onEvent`, and its reconnections. -/
def events : Code Call :=
  .loop (.choose .leave <| .choose .again <| .choose (.loop send .again) <| .choose (.loop kick .again) <|
    .call .invalidateGroup .again) .exit

/-- `Gateway.Subscribe` -/
def subscribe : Code Call :=
  .choose .leave <| .loop startDeliver <| .both (.call .subscribe .exit) events .leave

/-- `Gateway.Run`: `renew.Wait` comes before the unit is given back. -/
def run : Code Call :=
  .enter
    (.choose
      (.call .purgeNode <|
        .both renewLoop (.loop startOnlineSubscriptions <| .loop subscribe .exit) <| .done .exit)
      (.loop startOnlineSubscriptions <| .loop subscribe <| .done .exit))
    .exit

/-- What is called from outside: HTTP requests, the owner of the node, and `Kick`. -/
inductive Program where
  | upgrade | watchUpgrade | run | kick
  deriving DecidableEq

def Program.code : Program → Code Call
  | .upgrade => Shutdown.upgrade
  | .watchUpgrade => Shutdown.watchUpgrade
  | .run => Shutdown.run
  | .kick => .loop Shutdown.kick .exit

/-! ### `Shutdown` -/

/-- Where `Shutdown` stands: the statement that is next. `failed` tells whether an error was found.
-/
inductive Pc where
  | idle
  /-- `g.closing.Store(true)` -/
  | closing
  /-- `g.work.shutdown(ctx)` -/
  | record
  /-- `g.cancelRun()` -/
  | cancelRun
  /-- `g.users.Close()` -/
  | closeUsers
  /-- `context.AfterFunc` -/
  | arm
  /-- the loop over the clients -/
  | drain
  /-- the loop over `Count` -/
  | poll
  /-- `if ctx.Err() != nil` -/
  | late
  | lateCancelOps
  | lateClose
  | cancelOps
  /-- `g.cancel()` -/
  | cancel
  | seal_
  /-- the goroutine that waits is started -/
  | wait
  /-- the `select` -/
  | select
  /-- `ctx.Err()`, the first argument of `errors.Join` -/
  | err
  /-- `purgeNode` -/
  | purge (failed : Bool)
  | purging (failed : Bool)
  /-- the deferred function -/
  | deferred (failed : Bool)
  | returned (failed : Bool)
  deriving DecidableEq

/-- The function that the end of the context starts. -/
inductive HardPc where
  | none
  | armed
  | cancelOps
  | cancel
  | close
  | done
  | stopped
  deriving DecidableEq

/-- A goroutine that `Shutdown` starts: that of `work.wait`, and that of `PurgeNode` with its
result. -/
inductive Waiter where
  | none | waiting | closed
  deriving DecidableEq

inductive Purge where
  | none
  | calling
  | returned (ok : Bool)
  deriving DecidableEq

structure State where
  pool : Pool Call := {}
  /-- the group knows the context of `Shutdown` -/
  recorded : Bool := false
  /-- the context of `Shutdown` is done -/
  deadline : Bool := false
  pc : Pc := .idle
  hard : HardPc := .none
  waiter : Waiter := .none
  purge : Purge := .none

inductive Event where
  | start (p : Program)
  /-- the next step of a goroutine -/
  | step (k : ℕ) (c : Choice)
  /-- `Shutdown` is called -/
  | shutdown
  /-- its next statement; `b` is what it finds, or which case of a `select` it takes -/
  | main (b : Bool)
  | hard
  /-- the context of `Shutdown` is done -/
  | expire
  /-- `work.wait` returns -/
  | waited
  /-- `PurgeNode` returns -/
  | purged (ok : Bool)
  deriving DecidableEq

namespace State

/-- `cancelOps`, or an end of the shutdown context that the group knows of: operations are refused.
-/
def refuse (s : State) : State :=
  { s with pool := { s.pool with group := { s.pool.group with refusing := true } } }

/-- The next statement of `Shutdown`. -/
def mainNext (s : State) (b : Bool) : Option State :=
  match s.pc with
  | .idle | .returned _ => none
  | .closing => some { s with pc := .record }
  | .record =>
    some { (if s.deadline then s.refuse else s) with recorded := true, pc := .cancelRun }
  | .cancelRun => some { s with pc := .closeUsers }
  | .closeUsers => some { s with pc := .arm }
  | .arm => some { s with hard := .armed, pc := .drain }
  | .drain =>
    -- `closeAfterFlush(nil)` of one more client
    if b then some { s with pool := s.pool.start drainTimer } else some { s with pc := .poll }
  | .poll => some { s with pc := if b then .poll else .late }
  | .late => some { s with pc := if s.deadline then .lateCancelOps else .cancelOps }
  | .lateCancelOps => some { s.refuse with pc := .lateClose }
  | .lateClose => some { s with pc := .cancelOps }
  | .cancelOps => some { s.refuse with pc := .cancel }
  | .cancel => some { s with pc := .seal_ }
  | .seal_ =>
    some { s with pool := { s.pool with group := { s.pool.group with sealed := true } }, pc := .wait }
  | .wait => some { s with waiter := .waiting, pc := .select }
  | .select =>
    if b = true ∧ s.waiter = .closed ∨ b = false ∧ s.deadline = true then some { s with pc := .err } else none
  | .err => some { s with pc := .purge s.deadline }
  | .purge failed =>
    if b || s.deadline then some { s with pc := .deferred failed }
    else some { s with purge := .calling, pc := .purging failed }
  | .purging failed =>
    match b, s.purge with
    | true, .returned ok => some { s with pc := .deferred (failed || !ok) }
    | true, _ => none
    | false, _ => if s.deadline then some { s with pc := .deferred true } else none
  | .deferred failed =>
    match s.hard with
    | .armed => some { s with hard := .stopped, pc := .returned failed }
    | .done => some { s with pc := .returned failed }
    | _ => none

/-- The next statement of the function that the end of the context starts. -/
def hardNext (s : State) : Option State :=
  match s.hard with
  | .armed => if s.deadline then some { s with hard := .cancelOps } else none
  | .cancelOps => some { s.refuse with hard := .cancel }
  | .cancel => some { s with hard := .close }
  | .close => some { s with hard := .done }
  | .none | .done | .stopped => none

/-- **One step of the node.** -/
def next (s : State) : Event → Option State
  | .start p => some { s with pool := s.pool.start p.code }
  | .step k c => (s.pool.next k c).map fun pool ↦ { s with pool }
  | .shutdown => if s.pc = .idle then some { s with pc := .closing } else none
  | .main b => s.mainNext b
  | .hard => s.hardNext
  | .expire => some { (if s.recorded then s.refuse else s) with deadline := true }
  | .waited =>
    if s.waiter = .waiting ∧ s.pool.group.count = 0 then some { s with waiter := .closed } else none
  | .purged ok => if s.purge = .calling then some { s with purge := .returned ok } else none

/-- A call of a dependency is in progress. -/
def Calls (s : State) : Prop := (∃ p ∈ s.pool.procs, p.calls = true) ∨ s.purge = .calling

end State

/-- The node as a transition system. -/
def node : System State Event := System.guarded {} State.next

end Nexo.Gateway.Shutdown
