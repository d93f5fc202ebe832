import Nexo.Lib.Json

/-!
# Bus events on the wire

`bus/bus.go`: an event is an object with a type, the id of the node it comes from, and a payload
that is a JSON text of its own and is spliced in as it is. So the length of an event is that of its
payload and of what is around it (`length_of_marshal`), which depends on the node id alone.

A node id is any byte string, as configuration and host name give it; one that is not valid UTF-8
cannot be marshalled. All other strings here are texts.
-/

namespace Nexo.Bus

open Json List

def typePush : String := "push"
def typePresenceChanged : String := "presence_changed"

/-- `MaxPayloadBytes` -/
def maxPayloadBytes : ℕ := 7500

/-- What `NOTIFY` of PostgreSQL takes: fewer than these bytes. -/
def notifyLimit : ℕ := 8000

/-- `bus.Event` -/
structure Event where
  type : String
  nodeId : Bytes
  payload : Bytes
  deriving DecidableEq

/-- `json.Marshal` of an event; nothing when it fails. -/
def Event.marshal (ev : Event) : Option Bytes :=
  (quoted ev.nodeId).map fun node ↦
    object [("type", string ev.type), ("node_id", node), ("payload", ev.payload)]

/-- What is around the payload of an event of that type whose node id is written so. -/
def around (type : String) (node : Bytes) : ℕ := (string type).length + node.length + 31

theorem length_of_marshal {ev : Event} {raw : Bytes} (h : ev.marshal = some raw) :
    ∃ node, quoted ev.nodeId = some node ∧
      raw.length = around ev.type node + ev.payload.length := by
  obtain ⟨node, hnode, rfl⟩ := Option.map_eq_some_iff.1 h
  refine ⟨node, hnode, ?_⟩
  have htype : (string "type").length = 6 := by decide
  have hid : (string "node_id").length = 9 := by decide
  have hpayload : (string "payload").length = 9 := by decide
  rw [length_object (cons_ne_nil _ _)]
  simp only [map_cons, map_nil, sum_cons, sum_nil, cost, htype, hid, hpayload,
    around]
  omega

/-- `json.Marshal` of a `bus.PresenceChanged` -/
def presenceChanged (userIds : List String) : Bytes :=
  object [("user_ids", array (userIds.map string))]

example : presenceChanged ["a", "b"] = Bytes.ascii "\x7b\"user_ids\":[\"a\",\"b\"]\x7d" := by decide

end Nexo.Bus
