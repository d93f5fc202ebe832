import Nexo.Gateway.PresenceQueue
import Nexo.Gateway.PresenceRegistry
import Nexo.Lib.Machine

/-!
# Runs of the presence scheduler

Each section under `onlineSubs.mu` is a step, and so is each turn of the dispatcher's loop, so that
the states between two admissions are seen as well (`path_dispatchOnline`). Contexts are cancelled
and the node is closed outside the lock, at any time; a client's subscription is removed by its
`close` or its drain, both of which have cancelled its `activeCtx` before.

The log and the stamps are history: what happened to which connection at which clock reading, newest
first, and the reading at which each number of `seq` was given out.
-/

namespace Nexo.Gateway

open Machine

/-- What the history remembers of a step. -/
inductive PresenceEntry where
  /-- a new revision was accepted -/
  | revised (c : ℕ) (time : Int)
  /-- a read was dispatched for the pending mark of that number, under that revision and set -/
  | admitted (c : ℕ) (time : Int) (mark : ℕ) (revision : Int) (userIds : List String)
  | finished (c : ℕ) (time : Int)
  deriving DecidableEq

structure PresenceRun (L : Type) where
  sched : Presence L
  log : List PresenceEntry := []
  stamps : List Int := []

inductive PresenceEvent (ι : Type) where
  /-- `setOnlineSubscriptions` -/
  | subscribe (c : ℕ) (req : SubscriptionRequest) (now : Int)
  /-- `markOnlineChanged` -/
  | changed (userIds : List String) (visits : List (List ℕ)) (now : Int)
  /-- a turn of the loop of `dispatchOnline` -/
  | turn (now : Int)
  /-- a worker receives a job -/
  | take
  /-- `finishOnlineRead` of the `k`th running job -/
  | finish (k : ℕ) (result : Option (List ι)) (now : Int)
  /-- a drain or a close cancels the client's `activeCtx` -/
  | cancelActive (c : ℕ)
  /-- `removeOnlineSubscriptions` -/
  | unsubscribe (c : ℕ)
  /-- the node sets `closing` -/
  | closeNode
  /-- the dispatcher returns -/
  | stop (order : List ℕ)

/-- A map yields its keys in some order. -/
def Yields (clients : Finset ℕ) (visits : List ℕ) : Prop := visits.Nodup ∧ visits.toFinset = clients

instance (clients : Finset ℕ) (visits : List ℕ) : Decidable (Yields clients visits) :=
  inferInstanceAs (Decidable (_ ∧ _))

/-- The revision that a client's subscription has. -/
def Presence.revisionOf {L : Type} (p : Presence L) (c : ℕ) : Option Int :=
  (p.onlineSub c).map fun i ↦ (p.subs i).revision

/-- The admission of the head of the queue, as the log has it. -/
def Presence.admission {L : Type} (p : Presence L) (now : Int) : PresenceEntry :=
  let s := p.subs (p.due.slot 0)
  .admitted s.client now s.seq s.revision s.userIds

namespace PresenceRun

variable {L ι : Type}

/-- A step at a clock reading, with what the history keeps of it. -/
def record (s : PresenceRun L) (now : Int) (entries : List PresenceEntry) (p : Presence L) :
    PresenceRun L where
  sched := p
  log := entries ++ s.log
  stamps := s.stamps ++ List.replicate (p.seq - s.sched.seq) now

/-- **One step of the scheduler.** -/
def next (env : OnlineEnv L) (s : PresenceRun L) : PresenceEvent ι → Option (PresenceRun L)
  | .subscribe c req now =>
    let p := (s.sched.setOnlineSubscriptions env c req now).2
    some (s.record now (if p.revisionOf c = s.sched.revisionOf c then [] else [.revised c now]) p)
  | .changed userIds visits now =>
    if List.Forall₂ (fun id l ↦ Yields (Presence.watchers s.sched.byUser id) l) userIds visits then
      some (s.record now [] (s.sched.markOnlineChanged visits now))
    else none
  | .turn now =>
    match s.sched.turn env now with
    | .done p _ => some { s with sched := p }
    | .admitted p => some (s.record now [s.sched.admission now] p)
    | .blocked => none
  | .take =>
    match s.sched.jobs with
    | [] => none
    | job :: jobs =>
      if s.sched.running.length < onlineRefreshWorkers then
        some { s with sched := { s.sched with jobs, running := s.sched.running ++ [job] } }
      else none
  | .finish k result now =>
    match s.sched.running[k]? with
    | none => none
    | some job =>
      let p := { s.sched with running := s.sched.running.eraseIdx k }
      some (s.record now [.finished (p.subs job.sub).client now]
        (p.finishOnlineRead job result now).1)
  | .cancelActive c =>
    some { s with sched := { s.sched with done := Function.update s.sched.done c true } }
  | .unsubscribe c =>
    if s.sched.done c then some { s with sched := s.sched.removeOnlineSubscriptions c } else none
  | .closeNode => some { s with sched := { s.sched with closing := true } }
  | .stop order =>
    if order.Perm s.sched.active.keys then some { s with sched := s.sched.stop order } else none

end PresenceRun

/-- The clock reading of a step, if it takes one. -/
def PresenceEvent.now {ι : Type} : PresenceEvent ι → Option Int
  | .subscribe _ _ now | .changed _ _ now | .turn now | .finish _ _ now => some now
  | .take | .cancelActive _ | .unsubscribe _ | .closeNode | .stop _ => none

/-- The scheduler as a transition system, at any clock readings. -/
def presence {L : Type} (ι : Type) (env : OnlineEnv L) (frames : L) :
    System (PresenceRun L) (PresenceEvent ι) :=
  System.guarded { sched := .new frames } (PresenceRun.next env)

/-- A run, and the last clock reading. -/
structure TimedRun (L : Type) where
  run : PresenceRun L
  clock : Int

/-- A step whose clock reading, if it takes one, is not before the last. -/
def TimedRun.next {L ι : Type} (env : OnlineEnv L) (s : TimedRun L) (e : PresenceEvent ι) :
    Option (TimedRun L) :=
  if s.clock ≤ e.now.getD s.clock then
    (s.run.next env e).map fun run ↦ { run, clock := e.now.getD s.clock }
  else none

/-- The scheduler with non-decreasing clock readings, from `start` on. -/
def timedPresence {L : Type} (ι : Type) (env : OnlineEnv L) (frames : L) (start : Int) :
    System (TimedRun L) (PresenceEvent ι) :=
  System.guarded { run := { sched := .new frames }, clock := start } (TimedRun.next env)

end Nexo.Gateway
