import Nexo.Bus.Event
import Nexo.Gateway.Push

/-!
# Push events on the wire

`service/message/bus.go`: `busPublisher.Publish` carries the message in the payload unless that
makes it longer than `MaxPayloadBytes`, and then sends a reference, which `ResolvePush` reads back.
A reference is short because every text in it is in a column of limited width
(`length_marshal_referencePayload_le`).

All texts of a payload are valid UTF-8, so `json.Marshal` cannot fail on it.
-/

namespace Nexo.Bus

open Json Gateway List

/-! ### Encoding -/

/-- `json.Marshal` of a `dto.Message` -/
def marshalMessage (m : Dto.Message) : Bytes :=
  object ([("server_msg_id", string m.serverMsgId), ("client_msg_id", string m.clientMsgId),
      ("conversation_id", string m.conversationId), ("seq", int m.seq),
      ("session_type", int m.sessionType), ("sender_id", string m.senderId)] ++
    omitEmpty "recv_id" m.recvId ++ omitEmpty "group_id" m.groupId ++
    [("content_type", int m.contentType), ("content", string m.content),
      ("send_time", int m.sendTime)])

/-- `json.Marshal` of a `PushPayload` -/
def marshalPayload (p : PushPayload) : Bytes :=
  object ([("conversation_id", string p.conversationId), ("seq", int p.seq),
      ("session_type", int p.sessionType), ("sender_id", string p.senderId)] ++
    omitEmpty "sender_conn_id" p.senderConnId ++ omitEmpty "recv_id" p.recvId ++
    omitEmpty "group_id" p.groupId ++ (if p.ref then [("ref", Bytes.ascii "true")] else []) ++
    (p.msg.map fun m ↦ ("msg", marshalMessage m)).toList)

/-! ### Publish -/

/-- The payload that carries the message. -/
def inlinePayload (ev : PushEvent) : PushPayload where
  conversationId := ev.conversationId
  seq := ev.message.seq
  sessionType := ev.sessionType
  senderId := ev.senderId
  senderConnId := ev.senderConnId
  recvId := ev.recvId
  groupId := ev.groupId
  msg := some ev.message

/-- The payload that refers to the message. -/
def referencePayload (ev : PushEvent) : PushPayload := { inlinePayload ev with ref := true, msg := none }

/-- The payload of a push event. -/
def pushPayload (ev : PushEvent) : PushPayload :=
  if (marshalPayload (inlinePayload ev)).length > maxPayloadBytes then referencePayload ev
  else inlinePayload ev

/-- `busPublisher.Publish`: what it hands to the bus. -/
def publish (nodeId : Bytes) (ev : PushEvent) : Event where
  type := typePush
  nodeId := nodeId
  payload := marshalPayload (pushPayload ev)

/-! ### Sizes -/

/-- **The columns of a message**, and of the id of the connection that sent it: how many characters
they hold, and that numbers have 64 bits. -/
structure InColumns (ev : PushEvent) : Prop where
  conversationId : ev.conversationId.length ≤ 256
  seq : Strconv.Fits ev.message.seq
  sessionType : Strconv.Fits ev.sessionType
  senderId : ev.senderId.length ≤ 64
  senderConnId : ev.senderConnId.length ≤ 64
  recvId : ev.recvId.length ≤ 64
  groupId : ev.groupId.length ≤ 64

theorem length_marshal_referencePayload_le {ev : PushEvent} (h : InColumns ev) :
    (marshalPayload (referencePayload ev)).length ≤ maxPayloadBytes := by
  have hconv := length_string_le ev.conversationId
  have hsender := length_string_le ev.senderId
  have hconn := length_string_le ev.senderConnId
  have hrecv := length_string_le ev.recvId
  have hgroup := length_string_le ev.groupId
  have hseq := length_int_le h.seq
  have htype := length_int_le h.sessionType
  have hconn' := cost_omitEmpty_le "sender_conn_id" ev.senderConnId
  have hrecv' := cost_omitEmpty_le "recv_id" ev.recvId
  have hgroup' := cost_omitEmpty_le "group_id" ev.groupId
  -- the names of the members
  have hnames : (string "conversation_id").length = 17 ∧ (string "seq").length = 5 ∧
      (string "session_type").length = 14 ∧ (string "sender_id").length = 11 ∧
      (string "sender_conn_id").length = 16 ∧ (string "recv_id").length = 9 ∧
      (string "group_id").length = 10 ∧ (string "ref").length = 5 ∧
      (Bytes.ascii "true").length = 4 := by decide
  obtain ⟨hn₁, hn₂, hn₃, hn₄, hn₅, hn₆, hn₇, hn₈, hn₉⟩ := hnames
  obtain ⟨hw₁, -, -, hw₄, hw₅, hw₆, hw₇⟩ := h
  rw [marshalPayload, length_object (by simp), maxPayloadBytes]
  simp only [referencePayload, inlinePayload, map_append, sum_append, map_cons,
    map_nil, sum_cons, sum_nil, if_true, Option.map_none, Option.toList_none, cost,
    hn₁, hn₂, hn₃, hn₄, hn₈, hn₉] at *
  omega

/-- **No payload is longer than `MaxPayloadBytes`.** -/
theorem length_marshal_pushPayload_le {ev : PushEvent} (h : InColumns ev) :
    (marshalPayload (pushPayload ev)).length ≤ maxPayloadBytes := by
  unfold pushPayload
  split_ifs with hlong
  · exact length_marshal_referencePayload_le h
  · exact Nat.le_of_not_lt hlong

/-- The event around it adds its own type and the node id. -/
theorem length_of_publish {nodeId raw : Bytes} {ev : PushEvent} (h : (publish nodeId ev).marshal = some raw) :
    ∃ node, quoted nodeId = some node ∧
      raw.length = node.length + (marshalPayload (pushPayload ev)).length + 37 := by
  obtain ⟨node, hnode, hlen⟩ := length_of_marshal h
  have htype : (string typePush).length = 6 := by decide
  have haround : around (publish nodeId ev).type node = node.length + 37 := by
    change (string typePush).length + node.length + 31 = _
    omega
  refine ⟨node, hnode, ?_⟩
  rw [hlen, haround]
  exact Nat.add_right_comm _ _ _

/-! ### Reading back -/

variable {d : Db} {ev : PushEvent}

section

variable (h : (d.messages.get (.seq ev.conversationId ev.message.seq)).map Dto.messageFromStore =
    some ev.message)
include h

theorem resolvePush_referencePayload :
    resolvePush d (referencePayload ev) = some ev := by
  change ((none : Option Dto.Message).or ((d.messages.get
    (.seq ev.conversationId ev.message.seq)).map Dto.messageFromStore)).map _ = _
  rw [h]
  rfl

/-- **What is resolved is what was published**, wherever the message is stored as it is. -/
theorem resolvePush_pushPayload :
    resolvePush d (pushPayload ev) = some ev := by
  unfold pushPayload
  split_ifs with hlong
  · exact resolvePush_referencePayload h
  · rfl

end

end Nexo.Bus
