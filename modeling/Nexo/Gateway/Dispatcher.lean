import Nexo.Gateway.PresenceSystem
import Nexo.Lib.TokenBucket
import Mathlib.Algebra.Order.Floor.Ring
import Mathlib.Data.Rat.Floor

/-!
# The dispatcher's loop

`runOnlineSubscriptions`: a turn under `onlineSubs.mu`, then the timer, then the `select` on the end
of the run, the channel `wake` and the timer. Between two of its steps the others do whatever they
do, under the lock or outside it. Time passes between any two steps, except from the clock reading
of a turn to the timer that the turn sets. The readings of the others are those of some earlier
moment.

The frame limiter is a token bucket with exact arithmetic; `DelayFrom` counts whole nanoseconds, as
every `time.Duration` does.
-/

namespace Nexo.Gateway

open Machine TokenBucket

def onlineFramesPerSecond : ℚ := 200

/-- `rate.NewLimiter(onlineFramesPerSecond, onlineFramesPerSecond)`, per nanosecond. -/
def frameRate : Rate ℚ := ⟨onlineFramesPerSecond / 1000000000, onlineFramesPerSecond⟩

/-- `ReserveN` and `DelayFrom`, and `CancelAt` when there is a delay. -/
def reserveFrame (frames : Bucket ℚ) (now : Int) : Bucket ℚ × Option Int :=
  let (reserved, delay) := frameRate.reserve frames now
  if 0 < ⌊delay⌋ then (frameRate.cancel reserved now, some ⌊delay⌋) else (reserved, none)

/-- The scheduler's environment with that limiter. -/
def frameEnv (available : Bool) (uuidString : String → Option String) : OnlineEnv (Bucket ℚ) where
  available := available
  uuidString := uuidString
  reserve := reserveFrame

namespace Dispatcher

/-- Where `runOnlineSubscriptions` stands. -/
inductive Pc where
  /-- `p.mu.Lock()` -/
  | lock
  /-- `timer.Stop()`, and `timer.Reset(wait)` if it is positive -/
  | arm (wait : Int)
  /-- the `select`; the timer is the time at which it fires -/
  | park (timer : Option Int)
  /-- the deferred function -/
  | leave
  | exited
  deriving DecidableEq

structure State where
  sched : Presence (Bucket ℚ) := .new frameRate.fresh
  clock : Int
  pc : Pc := .lock

inductive Event (ι : Type) where
  /-- a step of another goroutine -/
  | other (e : PresenceEvent ι)
  | dispatch
  | arm
  /-- the branches of the `select` -/
  | wake
  | fire
  | done
  /-- the map of the active subscriptions yields them in this order -/
  | stop (order : List ℕ)
  | tick (duration : ℕ)

/-- The time at which a timer fires that is set at `now`. -/
def timerAt (now wait : Int) : Option Int := if 0 < wait then some (now + wait) else none

/-- Is it a step of another goroutine, at the present or an earlier clock reading? -/
def allows {ι : Type} (clock : Int) : PresenceEvent ι → Bool
  | .subscribe _ _ now | .changed _ _ now | .finish _ _ now => now ≤ clock
  | .take | .cancelActive _ | .unsubscribe _ | .closeNode => true
  | .turn _ | .stop _ => false

/-- **One step of the node.** -/
def State.next {ι : Type} (env : OnlineEnv (Bucket ℚ)) (s : State) : Event ι → Option State
  | .other e =>
    if allows s.clock e then
      (PresenceRun.next env { sched := s.sched } e).map fun run ↦ { s with sched := run.sched }
    else none
  | .dispatch =>
    match s.pc with
    | .lock =>
      (s.sched.dispatchOnline env s.clock).map fun (sched, wait) ↦ { s with sched, pc := .arm wait }
    | _ => none
  | .arm =>
    match s.pc with
    | .arm wait => some { s with pc := .park (timerAt s.clock wait) }
    | _ => none
  | .wake =>
    match s.pc with
    | .park _ =>
      if s.sched.wake then some { s with sched := { s.sched with wake := false }, pc := .lock } else none
    | _ => none
  | .fire =>
    match s.pc with
    | .park (some time) => if time ≤ s.clock then some { s with pc := .lock } else none
    | _ => none
  | .done =>
    match s.pc with
    | .park _ => some { s with pc := .leave }
    | _ => none
  | .stop order =>
    if s.pc = .leave ∧ order.Perm s.sched.active.keys then
      some { s with sched := s.sched.stop order, pc := .exited }
    else none
  | .tick duration =>
    match s.pc with
    | .arm _ => none
    | _ => some { s with clock := s.clock + duration }

end Dispatcher

/-- The loop and everyone else, from the moment `start` on. -/
def dispatcher (ι : Type) (env : OnlineEnv (Bucket ℚ)) (start : Int) :
    System Dispatcher.State (Dispatcher.Event ι) :=
  System.guarded { clock := start } (Dispatcher.State.next env)

end Nexo.Gateway
