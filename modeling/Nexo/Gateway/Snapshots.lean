import Nexo.Gateway.PresenceEffect

/-!
# Presence frames on their way to a connection

`finishOnlineRead` assembles a frame and enqueues it in one section under `onlineSubs.mu`; the
enqueue is a section under the connection's `sendMu` inside it. Between the two, sections under
`kickMu` and the connection's other senders may run, but nothing that needs `onlineSubs.mu`.

A drain cancels the client's `activeCtx` under `kickMu`, then removes its subscription, then sends
`2002` if it has a last frame; a close cancels under `kickMu`, sets `closing` under `sendMu`, then
removes. What a connection was sent, and which reads succeeded, is history, newest first. The writer
takes frames off the queue in their order, which changes nothing here, and whether a frame fits, in
the queue and in the node's byte budget, is open.
-/

namespace Nexo.Gateway

open Machine

/-- An outbound frame. -/
inductive OutFrame (ι : Type) where
  | onlineChanged (snapshot : OnlineSnapshot ι)
  /-- `2002` -/
  | kickOnline
  | other
  deriving DecidableEq

/-- Where a drain stands; `last` tells whether it has a last frame. -/
inductive DrainPc where
  | idle
  /-- `beginDrain` has cancelled `activeCtx` -/
  | begun (last : Bool)
  /-- `finishDrain` has removed the subscription -/
  | removed (last : Bool)
  | finished
  deriving DecidableEq

/-- `Client`, as far as draining, closing and sending go. -/
structure Outbox (ι : Type) where
  drain : DrainPc := .idle
  /-- is `connCtx` cancelled? -/
  cancelled : Bool := false
  closing : Bool := false
  sent : List (OutFrame ι) := []

/-- A worker in `queueOnlineSnapshot`: it holds `onlineSubs.mu`. -/
structure Held (ι : Type) where
  client : ℕ
  job : OnlineRead
  result : Option (List ι)
  now : Int
  frame : OnlineSnapshot ι

/-- A read that succeeded. -/
structure Success where
  client : ℕ
  revision : Int
  time : Int
  deriving DecidableEq

structure SnapshotRun (L ι : Type) where
  base : PresenceRun L
  held : Option (Held ι) := none
  outbox : ℕ → Outbox ι := fun _ ↦ {}
  successes : List Success := []

inductive SnapshotEvent (ι : Type) where
  /-- a step of the scheduler that is none of those below -/
  | sched (e : PresenceEvent ι)
  /-- `finishOnlineRead` up to `queueOnlineSnapshot` -/
  | finish (k : ℕ) (result : Option (List ι)) (now : Int)
  /-- `queueOnlineSnapshot` -/
  | enqueue (fits : Bool)
  /-- another frame -/
  | send (c : ℕ) (fits : Bool)
  /-- `beginDrain`, under `kickMu` -/
  | beginDrain (c : ℕ) (last : Bool)
  /-- `finishDrain`: the subscription -/
  | drainRemove (c : ℕ)
  /-- `finishDrain`: the last frame -/
  | drainSend (c : ℕ) (fits : Bool)
  /-- `close`: `cancelCtx`, under `kickMu` -/
  | cancelCtx (c : ℕ)
  /-- `close`: the section under `sendMu` -/
  | markClosing (c : ℕ)
  /-- `close`: the subscription -/
  | closeRemove (c : ℕ)

/-- Does a step need `onlineSubs.mu`? `none` for a step that belongs to a party of its own. -/
def PresenceEvent.locks {ι : Type} : PresenceEvent ι → Option Bool
  | .subscribe .. | .changed .. | .turn _ | .stop _ => some true
  | .take | .closeNode => some false
  | .finish .. | .cancelActive _ | .unsubscribe _ => none

namespace SnapshotRun

variable {L ι : Type}

/-- `queueFrame` -/
def queueFrame (s : SnapshotRun L ι) (c : ℕ) (frame : OutFrame ι) (fits : Bool) : SnapshotRun L ι :=
  if (s.outbox c).closing ∨ ¬ fits then s
  else { s with
    outbox := Function.update s.outbox c { s.outbox c with sent := frame :: (s.outbox c).sent } }

/-- A step of the scheduler inside a step of a party. -/
def within (env : OnlineEnv L) (s : SnapshotRun L ι) (e : PresenceEvent ι) (c : ℕ) (o : Outbox ι) :
    Option (SnapshotRun L ι) :=
  (s.base.next env e).map fun base ↦ { s with base, outbox := Function.update s.outbox c o }

/-- **One step.** -/
def next (env : OnlineEnv L) (s : SnapshotRun L ι) : SnapshotEvent ι → Option (SnapshotRun L ι)
  | .sched e =>
    match e.locks with
    | none => none
    | some locks =>
      if s.held.isSome ∧ locks then none else (s.base.next env e).map fun base ↦ { s with base }
  | .finish k result now =>
    if s.held.isSome then none
    else
      match s.base.sched.running[k]? with
      | none => none
      | some job =>
        let p := { s.base.sched with running := s.base.sched.running.eraseIdx k }
        let client := (p.subs job.sub).client
        let held := (p.finishOnlineRead job result now).2.map fun frame ↦
          { client, job, result, now, frame }
        let successes :=
          if result.isSome then { client, revision := job.revision, time := now } :: s.successes
          else s.successes
        (s.base.next env (.finish k result now)).map fun base ↦ { s with base, held, successes }
  | .enqueue fits =>
    match s.held with
    | none => none
    | some h => some (queueFrame { s with held := none } h.client (.onlineChanged h.frame) fits)
  | .send c fits => some (s.queueFrame c .other fits)
  | .beginDrain c last =>
    let o := s.outbox c
    if o.cancelled ∨ o.drain ≠ .idle then none
    else s.within env (.cancelActive c) c { o with drain := .begun last }
  | .drainRemove c =>
    let o := s.outbox c
    match o.drain with
    | .begun last =>
      if s.held.isSome then none
      else s.within env (.unsubscribe c) c { o with drain := .removed last }
    | _ => none
  | .drainSend c fits =>
    let o := s.outbox c
    match o.drain with
    | .removed last =>
      let s := { s with outbox := Function.update s.outbox c { o with drain := .finished } }
      some (if last then s.queueFrame c .kickOnline fits else s)
    | _ => none
  | .cancelCtx c => s.within env (.cancelActive c) c { s.outbox c with cancelled := true }
  | .markClosing c =>
    let o := s.outbox c
    if o.cancelled then
      some { s with outbox := Function.update s.outbox c { o with closing := true } }
    else none
  | .closeRemove c =>
    let o := s.outbox c
    if o.closing ∧ s.held.isNone then s.within env (.unsubscribe c) c o else none

end SnapshotRun

/-- Frames, drains and closes as a transition system. -/
def snapshots {L : Type} (ι : Type) (env : OnlineEnv L) (frames : L) :
    System (SnapshotRun L ι) (SnapshotEvent ι) :=
  System.guarded { base := { sched := .new frames } } (SnapshotRun.next env)

end Nexo.Gateway
