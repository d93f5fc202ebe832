import Nexo.Bus.Event
import Nexo.Gateway.PresenceSystem
import Nexo.Lib.Chunks
import Mathlib.Algebra.Order.BigOperators.Group.List

/-!
# Announcing presence changes

`gateway/presence_events.go`: `publishOnlineChanged` marks the node's own subscriptions of the users
and then tells the other nodes, in chunks of at most 100 ids. The room that the envelope may take is
a constant, so that a full chunk of the longest ids fits next to it; an envelope that takes more
makes the whole call give up.

A call is followed by what it leaves: the scheduler, the events that were handed to the bus, in
order, and how often it counted a failure. The bus may answer each publish as it likes, with a view
to the earlier ones.
-/

namespace Nexo.Gateway

open Json Bus List

/-! ### Sizes -/

/-- `maxUserIdJsonBytes`: the longest id in quotes, and the comma that separates it. -/
def maxUserIdJsonBytes : ℕ := Identity.prefixLength + 36 + 3

def presenceChunkSize : ℕ := 100

/-- `presenceChunkJsonBytes`: the ids, and the object that they are wrapped in. -/
def presenceChunkJsonBytes : ℕ := presenceChunkSize * maxUserIdJsonBytes + 15

def presenceEnvelopeBudget : ℕ := maxPayloadBytes - presenceChunkJsonBytes

example : presenceEnvelopeBudget = 3185 := by decide

/-- The event that carries these ids. -/
def presenceEvent (nodeId : Bytes) (userIds : List String) : Bus.Event where
  type := typePresenceChanged
  nodeId := nodeId
  payload := presenceChanged userIds

/-! ### The call -/

/-- What a call has done so far. -/
structure Announcement (L : Type) where
  sched : Presence L
  events : List Bus.Event := []
  /-- `onlinePublishFails`, from the start of the call on -/
  failures : ℕ := 0

variable {L : Type} {nodeId : Bytes}

/-- `fail` -/
def Announcement.fail (a : Announcement L) : Announcement L := { a with failures := a.failures + 1 }

/-- The body of the loop over the chunks: `answer sent ev` tells whether the bus takes `ev` after
the events `sent`. -/
def Announcement.publish (nodeId : Bytes) (baseSize : ℕ) (answer : List Bus.Event → Bus.Event → Bool)
    (a : Announcement L) (chunk : List String) : Announcement L :=
  if baseSize + (presenceChanged chunk).length > maxPayloadBytes then a.fail
  else
    let ev := presenceEvent nodeId chunk
    let a' := { a with events := a.events ++ [ev] }
    if answer a.events ev then a' else a'.fail

/-- `slices.Chunk` -/
def presenceChunks (ids : List String) : List (List String) :=
  (ids.toChunksAux (presenceChunkSize - 1) 0).2

/-- `Gateway.publishOnlineChanged`; without a bus, `answer` is nothing. `visit id` are the clients
of `byUser[id]` in the order in which the map yields them. -/
def publishOnlineChanged (p : Presence L) (visit : String → List ℕ) (now : Int) (nodeId : Bytes)
    (answer : Option (List Bus.Event → Bus.Event → Bool)) (userIds : List String) : Announcement L :=
  if userIds = [] then { sched := p }
  else
    let ids := Presence.sortCompact userIds
    let a : Announcement L := { sched := p.markOnlineChanged (ids.map visit) now }
    match answer with
    | none => a
    | some answer =>
      match (presenceEvent nodeId []).marshal with
      | none => a.fail
      | some envelope =>
        let baseSize := envelope.length - (presenceChanged []).length
        if baseSize > presenceEnvelopeBudget then a.fail
        else (presenceChunks ids).foldl (Announcement.publish nodeId baseSize answer) a

/-- **The empty envelope fits the budget.** -/
def EnvelopeFits (nodeId : Bytes) : Prop :=
  ∃ envelope, (presenceEvent nodeId []).marshal = some envelope ∧
    envelope.length - (presenceChanged []).length ≤ presenceEnvelopeBudget

/-! ### Lengths -/

/-- An event is as long as the empty envelope, without the empty payload, and its own payload. -/
theorem length_presenceEvent {envelope : Bytes}
    (h : (presenceEvent nodeId []).marshal = some envelope) (ids : List String) :
    ∃ raw, (presenceEvent nodeId ids).marshal = some raw ∧
      raw.length = envelope.length - (presenceChanged []).length + (presenceChanged ids).length := by
  obtain ⟨node, hnode, hempty⟩ := length_of_marshal h
  have hsome : (presenceEvent nodeId ids).marshal.isSome := by
    rw [Bus.Event.marshal, Option.isSome_map]
    exact Option.isSome_iff_exists.2 ⟨node, hnode⟩
  obtain ⟨raw, hraw⟩ := Option.isSome_iff_exists.1 hsome
  obtain ⟨node', hnode', hlen⟩ := length_of_marshal hraw
  obtain rfl : node = node' := Option.some.inj (hnode.symm.trans hnode')
  refine ⟨raw, hraw, ?_⟩
  have hbase : envelope.length - (presenceChanged []).length = around typePresenceChanged node := by
    rw [hempty]
    exact Nat.add_sub_cancel _ _
  rw [hlen, hbase]
  rfl

/-- **A chunk keeps to what is reserved for it**, when every id takes at most 42 bytes. -/
theorem length_presenceChanged_le {ids : List String} (hlen : ids.length ≤ presenceChunkSize)
    (hids : ∀ id ∈ ids, (string id).length + 1 ≤ maxUserIdJsonBytes) :
    (presenceChanged ids).length ≤ presenceChunkJsonBytes := by
  have hname : (string "user_ids").length = 10 := by decide
  rcases eq_or_ne ids [] with rfl | hne
  · decide
  have harray : (array (ids.map string)).length ≤ 1 + presenceChunkSize * maxUserIdJsonBytes := by
    rw [length_array (by simpa using hne), map_map]
    refine Nat.add_le_add_left ?_ 1
    calc (ids.map ((fun i ↦ i.length + 1) ∘ string)).sum
        ≤ (ids.map fun _ ↦ maxUserIdJsonBytes).sum := sum_le_sum hids
      _ = ids.length * maxUserIdJsonBytes := by simp
      _ ≤ presenceChunkSize * maxUserIdJsonBytes := Nat.mul_le_mul_right _ hlen
  rw [presenceChanged, length_object (cons_ne_nil _ _), presenceChunkJsonBytes]
  simp only [map_cons, map_nil, sum_cons, sum_nil, cost, hname]
  omega

/-! ### The loop -/

/-- How often the bus refuses one of the events, after the events `sent`. -/
def refusals (answer : List Bus.Event → Bus.Event → Bool) : List Bus.Event → List Bus.Event → ℕ
  | _, [] => 0
  | sent, ev :: rest => (if answer sent ev then 0 else 1) + refusals answer (sent ++ [ev]) rest

/-- **One chunk**: it is attempted, and counted when the bus refuses it. -/
theorem Announcement.publish_eq {baseSize : ℕ} {answer : List Bus.Event → Bus.Event → Bool}
    {a : Announcement L} {chunk : List String}
    (h : baseSize + (presenceChanged chunk).length ≤ maxPayloadBytes) :
    a.publish nodeId baseSize answer chunk =
      { sched := a.sched
        events := a.events ++ [presenceEvent nodeId chunk]
        failures := a.failures + if answer a.events (presenceEvent nodeId chunk) then 0 else 1 } := by
  rw [publish, if_neg (Nat.not_lt.2 h)]
  dsimp only
  split <;> rfl

/-- **All chunks**, when none is too long: each is attempted once, whatever became of the others. -/
theorem Announcement.publish_foldl {baseSize : ℕ} {answer : List Bus.Event → Bus.Event → Bool}
    {chunks : List (List String)}
    (h : ∀ chunk ∈ chunks, baseSize + (presenceChanged chunk).length ≤ maxPayloadBytes)
    (a : Announcement L) :
    chunks.foldl (Announcement.publish nodeId baseSize answer) a =
      { sched := a.sched
        events := a.events ++ chunks.map (presenceEvent nodeId)
        failures := a.failures + refusals answer a.events (chunks.map (presenceEvent nodeId)) } := by
  induction chunks generalizing a with
  | nil => simp [refusals]
  | cons chunk chunks ih =>
    obtain ⟨hchunk, hrest⟩ := forall_mem_cons.1 h
    rw [foldl_cons, publish_eq hchunk, ih hrest]
    simp only [map_cons, refusals, append_assoc, singleton_append, Nat.add_assoc]

end Nexo.Gateway
