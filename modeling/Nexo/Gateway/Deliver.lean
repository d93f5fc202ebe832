import Nexo.Gateway.Push

/-!
# `Deliver` in one piece

With a registry that does not change, `Deliver` is a function: the connections that get the frame,
in the order in which they get it. `WorkerPc.remaining` ties it to the workers, which take the same
way step by step: as long as the registry stays, what remains to be sent is the same after every
step, and becomes shorter by one when a connection is served.
-/

namespace Nexo.Gateway

section Deliver

variable {ε : Type} (users : UserMap) (connId : ℕ → String)

/-- `fanout` -/
def fanout (userId exceptConnId : String) : List ℕ :=
  (users.get userId).filter fun c ↦ connId c ≠ exceptConnId

/-- `Deliver`, given what `Recipients` and `VisibleTo` answer. -/
def deliver (recipients : Except ε (List String))
    (visibleTo : String → List String → Int → Except ε (List String)) (ev : PushEvent) : List ℕ :=
  match recipients with
  | .error _ => []
  | .ok candidates =>
    let local_ := users.onlineExcept connId candidates ev.senderConnId
    if local_.length = 0 then []
    else
      match visibleTo ev.conversationId local_ ev.message.seq with
      | .error _ => []
      | .ok targets => targets.flatMap fun userId ↦ fanout users connId userId ev.senderConnId

end Deliver

/-- `VisibleTo` in a state of the store. -/
def visibleTo (d : Db) (conversationId : String) (userIds : List String) (seq : Int) :
    Except StoreErr (List String) := .ok (d.visibleOwners conversationId userIds seq)

/-- The connections that a worker has still to serve, with the registry as it is; `d` is what the
visibility query sees if it is still to be made. -/
def WorkerPc.remaining (s : PushState) (d : Db) : WorkerPc → List ℕ
  | .idle | .taken _ _ | .resolved _ => []
  | .listed job => deliver s.users s.connId (.ok job.roster) (visibleTo d) job.event
  | .found job local_ =>
    (d.visibleOwners job.event.conversationId local_ job.event.message.seq).flatMap
      fun userId ↦ fanout s.users s.connId userId job.event.senderConnId
  | .fanning job targets conns => rest job targets conns
  | .pushing job targets conns op => op.client :: rest job targets conns
  | .closing job targets conns conn => conn :: rest job targets conns
where
  rest (job : Job) (targets : List String) (conns : List ℕ) : List ℕ :=
    (conns.filter fun c ↦ s.connId c ≠ job.event.senderConnId) ++
      targets.flatMap fun userId ↦ fanout s.users s.connId userId job.event.senderConnId

/-- `Recipients` has answered. -/
def WorkerPc.isListed : WorkerPc → Bool
  | .idle | .taken _ _ | .resolved _ => false
  | .listed _ | .found _ _ | .fanning _ _ _ | .pushing _ _ _ _ | .closing _ _ _ _ => true

/-- **The workers take the way of `Deliver`**: a step that touches nothing else leaves what remains.
-/
theorem WorkerPc.Goes.remaining_eq {s : PushState} {pc pc' : WorkerPc} {d : Db} (h : pc.Goes s pc')
    (hlisted : pc.isListed = true)
    (hdb : ∀ job targets conns, pc' = .fanning job targets conns → job.db = some d) :
    pc'.remaining s d = pc.remaining s d := by
  cases h with
  | resolve | recipients => cases hlisted
  | online hne =>
    simp only [remaining, deliver]
    rw [if_neg fun hnil ↦ hne (List.eq_nil_of_length_eq_zero hnil)]
    rfl
  | visibleTo d' =>
    obtain rfl := Option.some.inj (hdb _ _ _ rfl)
    rfl
  | skip hsender => simp [remaining, remaining.rest, hsender]
  | push size resync hne => simp [remaining, remaining.rest, hne]
  | target => simp [remaining, remaining.rest, fanout]

theorem WorkerPc.Ends.remaining_eq {s : PushState} {pc : WorkerPc} {job : Job} (d : Db)
    (h : pc.Ends s job) : pc.remaining s d = [] := by
  cases h with
  | offline hnone => simp [remaining, deliver, hnone]
  | done => rfl

end Nexo.Gateway
