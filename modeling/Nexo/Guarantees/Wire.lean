import Nexo.Bus.Push
import Nexo.Guarantees.Message
import Nexo.Guarantees.Routing
import Nexo.NodeConfig

/-!
# What holds of push events on the wire

A payload, inline or by reference, is read back as the event that was published, at any later time,
because a stored message never changes and every publish is made from the stored one
(`push_roundtrip`).

The size rule of `busPublisher.Publish` bounds the payload, while the limit of `NOTIFY` is on the
event around it. What is around it depends on the node id, which nothing restricts: an event always
fits exactly when the node id, written in JSON, has at most 462 bytes (`push_fits_iff`).
-/

namespace Nexo

open Relational Conv Message Gateway Bus Json List

variable {cfg : Config} {users : Table User String User.keys}

/-! ### Reading back -/

/-- A stored message is later found by its number. -/
theorem get_later {w w' : World (system cfg users)} (h : Reachable (system cfg users) w')
    (hlater : w.trace <:+ w'.trace) {m : Message} (hm : m ∈ w.db.messages.rows) :
    w'.db.messages.get (.seq m.conversationId m.seq) = some m :=
  messages_persist (valid_of_reachable h) hlater (mem_rows_iff.1 hm)

/-- **Inline and reference pushes are equivalent.** Let `w` be reachable and `w'` a later world. For
every message stored in `w` and every id of the connection that sent it: if the codec reads back the
payload that is published, then decoding and resolving it in `w'` gives the event that was
published, and so do both forms of the payload; the payload keeps to `MaxPayloadBytes` if the ids
keep to their columns. Whatever a call publishes, at first or again, is the event of a stored
message, and has the same message as any other publish of that number and as the lookup in `w'`. -/
theorem push_roundtrip {w w' : World (system cfg users)} (h : Reachable (system cfg users) w)
    (h' : Reachable (system cfg users) w') (hlater : w.trace <:+ w'.trace)
    (decode : Bytes → Option PushPayload) (nodeId : Bytes) :
    (∀ m ∈ w.db.messages.rows, ∀ conn, let ev := pushEvent m conn
      (decode (marshalPayload (pushPayload ev)) = some (pushPayload ev) →
        (decode (Bus.publish nodeId ev).payload).bind (resolvePush w'.db) = some ev) ∧
      resolvePush w'.db (inlinePayload ev) = some ev ∧
      resolvePush w'.db (referencePayload ev) = some ev ∧
      (InColumns ev → (Bus.publish nodeId ev).payload.length ≤ maxPayloadBytes)) ∧
    ∀ pid ev, .published ev ∈ marks pid w.trace →
      (∃ m ∈ w.db.messages.rows, ∃ conn, ev = pushEvent m conn) ∧
      (w'.db.messages.get (.seq ev.message.conversationId ev.message.seq)).map Dto.messageFromStore =
        some ev.message ∧
      ∀ pid' ev', .published ev' ∈ marks pid' w'.trace →
        ev'.message.conversationId = ev.message.conversationId → ev'.message.seq = ev.message.seq →
          ev'.message = ev.message := by
  have hfound : ∀ {m}, m ∈ w.db.messages.rows → ∀ conn,
      (w'.db.messages.get (.seq (pushEvent m conn).conversationId (pushEvent m conn).message.seq)).map
        Dto.messageFromStore = some (pushEvent m conn).message := by
    intro m hm conn
    exact Option.map_eq_some_iff.2 ⟨m, get_later h' hlater hm, rfl⟩
  refine ⟨fun m hm conn ↦ ⟨fun hcodec ↦ ?_, rfl, ?_, length_marshal_pushPayload_le⟩,
    fun pid ev hev ↦ ?_⟩
  · change (decode (marshalPayload (pushPayload (pushEvent m conn)))).bind _ = _
    rw [hcodec, Option.bind_some]
    exact resolvePush_pushPayload (hfound hm conn)
  · exact resolvePush_referencePayload (hfound hm conn)
  · obtain ⟨m, hm, conn, rfl⟩ := exists_of_published (valid_of_reachable h) hev
    refine ⟨⟨m, hm, conn, rfl⟩, hfound hm conn, fun pid' ev' hev' hconv hseq ↦ ?_⟩
    obtain ⟨m', hm', conn', rfl⟩ := exists_of_published (valid_of_reachable h') hev'
    -- both are the message that has the number
    have hget' := mem_rows_iff.1 hm'
    rw [show m'.conversationId = m.conversationId from hconv, show m'.seq = m.seq from hseq] at hget'
    obtain rfl := Option.some.inj ((get_later h' hlater hm).symm.trans hget')
    rfl

/-- Does the process publish exactly this? -/
def publishes (ev : PushEvent) : Mark → Bool
  | .published ev' => ev' = ev
  | _ => false

theorem mem_of_publishes {ev : PushEvent} {ms : List Mark} (h : ms.any (publishes ev)) :
    .published ev ∈ ms := by
  obtain ⟨k, hk, hpublishes⟩ := any_eq_true.1 h
  cases k with
  | published ev' =>
    obtain rfl : ev' = ev := of_decide_eq_true hpublishes
    exact hk
  | _ => cases hpublishes

/-- What the first send of `Demo.world` publishes. -/
def Demo.pushed : PushEvent where
  conversationId := "sg_g"
  sessionType := conversationGroup
  senderId := "u___1"
  senderConnId := "conn"
  recvId := ""
  groupId := "g"
  message := ⟨"m1", "k1", "sg_g", 1, conversationGroup, "u___1", "", "g", 1, "hi", 20⟩

/-- A codec that knows that event alone. -/
def Demo.decode (_ : Bytes) : Option PushPayload := some (pushPayload Demo.pushed)

/-- In `Demo.world` the first send and its retry publish the same event, which is read back. -/
theorem push_roundtrip_demo :
    .published Demo.pushed ∈ marks 1 Demo.world.trace ∧
    .published Demo.pushed ∈ marks 5 Demo.world.trace ∧
    (Demo.decode (Bus.publish [] Demo.pushed).payload).bind (resolvePush Demo.world.db) =
      some Demo.pushed ∧
    resolvePush Demo.world.db (referencePayload Demo.pushed) = some Demo.pushed ∧
    (Bus.publish [] Demo.pushed).payload.length ≤ maxPayloadBytes := by
  have hfirst : .published Demo.pushed ∈ marks 1 Demo.world.trace :=
    mem_of_publishes (by decide +kernel)
  have hretry : .published Demo.pushed ∈ marks 5 Demo.world.trace :=
    mem_of_publishes (by decide +kernel)
  have hcolumns : InColumns Demo.pushed :=
    ⟨by decide, ⟨by decide, by decide⟩, ⟨by decide, by decide⟩, by decide, by decide, by decide,
      by decide⟩
  obtain ⟨hstored, hpublished⟩ := push_roundtrip Demo.reachable Demo.reachable (List.suffix_refl _)
    Demo.decode []
  obtain ⟨m, hm, conn, hev⟩ := (hpublished 1 _ hfirst).1
  obtain ⟨hdecoded, -, hreference, hlength⟩ := hstored m hm conn
  rw [← hev] at hdecoded hreference hlength
  have hcodec : Demo.decode (marshalPayload (pushPayload Demo.pushed)) =
      some (pushPayload Demo.pushed) := by rw [Demo.decode]
  exact ⟨hfirst, hretry, hdecoded hcodec, hreference, hlength hcolumns⟩

/-! ### Fitting the transport -/

/-- **Every push event of a node with this id fits `NOTIFY`**, for every accepted configuration and
every message that its services ever store. -/
def PushFits (nodeId : Bytes) : Prop :=
  ∀ (libs : ConfigLibs) (c : NodeConfig), c.Accepted libs → c.nodeId = nodeId →
    ∀ pusher uuidString jsonValid users
      (w : World (system (c.services pusher uuidString jsonValid) users)),
      Reachable (system (c.services pusher uuidString jsonValid) users) w →
      ∀ m ∈ w.db.messages.rows, ∀ conn, InColumns (pushEvent m conn) →
        ∀ raw, (Bus.publish c.nodeId (pushEvent m conn)).marshal = some raw →
          raw.length < notifyLimit

theorem pushFits_of_le {nodeId : Bytes}
    (h : ∀ node, quoted nodeId = some node → node.length ≤ 462) : PushFits nodeId := by
  rintro libs c - rfl pusher uuidString jsonValid users w - m - conn hcolumns raw hraw
  obtain ⟨node, hnode, hlen⟩ := length_of_publish hraw
  have hle := h node hnode
  have hpayload := length_marshal_pushPayload_le hcolumns
  rw [maxPayloadBytes] at hpayload
  rw [notifyLimit, hlen]
  omega

namespace WireDemo

/-- A JSON text: a string of `n` letters. -/
def filler (n : ℕ) : String := String.ofList ('"' :: (List.replicate n 'a' ++ ['"']))

/-- The bytes of that text, in a form whose length is computed in `n` steps. -/
def fillerBytes (n : ℕ) : ByteArray := ⟨⟨0x22 :: (List.replicate n 0x61 ++ [0x22])⟩⟩

theorem bytesOf_filler (n : ℕ) : bytesOf (filler n) = 0x22 :: (replicate n 0x61 ++ [0x22]) := by
  have hletters : (replicate n 'a').flatMap String.utf8EncodeChar = replicate n 0x61 := by
    induction n with
    | zero => rfl
    | succ n ih =>
      rw [replicate_succ, flatMap_cons, ih, replicate_succ]
      rfl
  rw [bytesOf, filler, String.toList_ofList, flatMap_cons, flatMap_append, hletters]
  rfl

theorem toByteArray_filler (n : ℕ) : (filler n).toByteArray = fillerBytes n := by
  have hbytes : (bytesOf (filler n)).toByteArray = (filler n).toByteArray := String.utf8Encode_toList
  rw [← hbytes, bytesOf_filler]
  exact ByteArray.ext data_toByteArray

def content (n : ℕ) : String := ⟨fillerBytes n, toByteArray_filler n ▸ (filler n).isValidUTF8⟩

theorem content_eq (n : ℕ) : content n = filler n :=
  String.toByteArray_inj.1 (toByteArray_filler n).symm

theorem length_content (n : ℕ) : (string (content n)).length = n + 6 := by
  have hletters : (replicate n 0x61).flatMap escape = replicate n 0x61 :=
    flatMap_escape_of_plain fun b hb ↦ by rw [eq_of_mem_replicate hb]; decide
  rw [content_eq, string, length_quote, bytesOf_filler, flatMap_cons, flatMap_append, hletters]
  simp [escape]

/-- A node with PostgreSQL as store, bus and cache. -/
def base : NodeConfig where
  nodeId := []
  db := { dsn := "postgres" }
  busDriver := "postgres"
  cache := { driver := "pg" }
  auth := { nativeSecret := "0123456789abcdef0123456789abcdef" }

def node (nodeId : Bytes) : NodeConfig := { base with nodeId }

def libs : ConfigLibs := ⟨fun _ ↦ true, fun _ ↦ none⟩

theorem accepted (nodeId : Bytes) : (node nodeId).Accepted libs := by
  have h : base.Accepted libs := by decide +kernel
  exact (NodeConfig.accepted_nodeId nodeId).2 h

/-- What its services get. -/
def config : Config := base.services false (fun _ ↦ none) fun _ ↦ true

theorem services_node (nodeId : Bytes) :
    (node nodeId).services false (fun _ ↦ none) (fun _ ↦ true) = config :=
  rfl

/-- A group is made and its owner sends a long message. -/
def calls : List (Request × ∀ e : Ext, e.Res) :=
  [(.create "u___1" ⟨"team", "", "", "", ["u___2"]⟩, answers 10 "g"),
   (.send { Demo.message "u___1" "k1" with content := content 7230 }, answers 20 "m1")]

def trace : History config Demo.accounts := (serial (system config Demo.accounts) calls 0 []).getD []

def world : World (system config Demo.accounts) := World.finished trace calls.length

theorem reachable : Reachable (system config Demo.accounts) world :=
  reachable_serial (by decide +kernel)

/-- The message of that length. -/
def message (n : ℕ) : Message where
  conversationId := "sg_g"
  seq := 1
  serverMsgId := "m1"
  clientMsgId := "k1"
  senderId := "u___1"
  recvId := ""
  groupId := "g"
  sessionType := conversationGroup
  contentType := 1
  content := content n
  sendTime := 20
  createdAt := 20

/-- Is it that message? The bytes of the content are compared from the front. -/
def isMessage (n : ℕ) (m : Message) : Bool :=
  decide ({ m with content := "" } = { message n with content := "" }) &&
    m.content.toByteArray.data.toList == (fillerBytes n).data.toList

theorem eq_of_isMessage {n : ℕ} {m : Message} (h : isMessage n m = true) : m = message n := by
  obtain ⟨hfields, hbytes⟩ := Bool.and_eq_true_iff.1 h
  have hcontent : m.content = content n :=
    String.toByteArray_inj.1 (ByteArray.ext (Array.toList_inj.1 (eq_of_beq hbytes)))
  cases m
  cases of_decide_eq_true hfields
  exact congrArg (fun c ↦ { message n with content := c }) hcontent

theorem mem_rows : message 7230 ∈ world.db.messages.rows := by
  have hany : world.db.messages.rows.any (isMessage 7230) = true := by decide +kernel
  obtain ⟨m, hm, his⟩ := any_eq_true.1 hany
  exact eq_of_isMessage his ▸ hm

theorem length_inlinePayload (n : ℕ) :
    (marshalPayload (inlinePayload (pushEvent (message n) ""))).length = n + 270 := by
  -- names and values of the members, but for the content
  have hnames : (string "server_msg_id").length = 15 ∧ (string "client_msg_id").length = 15 ∧
      (string "conversation_id").length = 17 ∧ (string "seq").length = 5 ∧
      (string "session_type").length = 14 ∧ (string "sender_id").length = 11 ∧
      (string "group_id").length = 10 ∧ (string "content_type").length = 14 ∧
      (string "content").length = 9 ∧ (string "send_time").length = 11 ∧
      (string "msg").length = 5 := by decide
  have hvalues : (string "m1").length = 4 ∧ (string "k1").length = 4 ∧ (string "sg_g").length = 6 ∧
      (string "u___1").length = 7 ∧ (string "g").length = 3 ∧ (int 1).length = 1 ∧
      (int conversationGroup).length = 1 ∧ (int 20).length = 2 := by decide
  have hmessage : (marshalMessage (Dto.messageFromStore (message n))).length = n + 177 := by
    have hcontent := length_content n
    have hmarshal : marshalMessage (Dto.messageFromStore (message n)) = object
        [("server_msg_id", string "m1"), ("client_msg_id", string "k1"),
          ("conversation_id", string "sg_g"), ("seq", int 1), ("session_type", int conversationGroup),
          ("sender_id", string "u___1"), ("group_id", string "g"), ("content_type", int 1),
          ("content", string (content n)), ("send_time", int 20)] := rfl
    rw [hmarshal, length_object (cons_ne_nil _ _)]
    simp only [map_cons, map_nil, sum_cons, sum_nil, cost]
    omega
  have hmarshal : marshalPayload (inlinePayload (pushEvent (message n) "")) = object
      [("conversation_id", string "sg_g"), ("seq", int 1), ("session_type", int conversationGroup),
        ("sender_id", string "u___1"), ("group_id", string "g"),
        ("msg", marshalMessage (Dto.messageFromStore (message n)))] := rfl
  rw [hmarshal, length_object (cons_ne_nil _ _)]
  simp only [map_cons, map_nil, sum_cons, sum_nil, cost, hmessage]
  omega

/-- Its payload has exactly the greatest length that is sent inline. -/
theorem length_payload : (marshalPayload (pushPayload (pushEvent (message 7230) ""))).length = 7500 := by
  have hinline := length_inlinePayload 7230
  rwa [pushPayload, if_neg (by rw [hinline, maxPayloadBytes]; decide)]

theorem inColumns : InColumns (pushEvent (message 7230) "") :=
  ⟨by decide, ⟨by decide, by decide⟩, ⟨by decide, by decide⟩, by decide, by decide, by decide,
    by decide⟩

end WireDemo

/-- A longer node id leaves too little room for the longest payload. -/
theorem le_of_pushFits {nodeId node : Bytes} (h : PushFits nodeId) (hnode : quoted nodeId = some node) :
    node.length ≤ 462 := by
  obtain ⟨raw, hraw⟩ : ∃ raw,
      (Bus.publish nodeId (pushEvent (WireDemo.message 7230) "")).marshal = some raw :=
    ⟨_, Option.map_eq_some_iff.2 ⟨node, hnode, rfl⟩⟩
  have hworld := h WireDemo.libs (WireDemo.node nodeId) (WireDemo.accepted nodeId) rfl false
    (fun _ ↦ none) (fun _ ↦ true) Demo.accounts
  rw [WireDemo.services_node] at hworld
  have hlt : raw.length < notifyLimit :=
    hworld WireDemo.world WireDemo.reachable (WireDemo.message 7230) WireDemo.mem_rows ""
      WireDemo.inColumns raw hraw
  obtain ⟨node', hnode', hlen⟩ := length_of_publish hraw
  obtain rfl : node = node' := Option.some.inj (hnode.symm.trans hnode')
  rw [hlen, WireDemo.length_payload, notifyLimit] at hlt
  omega

/-- **Which node ids make every push event fit**: exactly those that take at most 462 bytes in JSON,
or cannot be written at all. The rest of the event takes 37 bytes, and 7500 are the most that a
payload takes and are taken by some message. -/
theorem push_fits_iff (nodeId : Bytes) :
    PushFits nodeId ↔ ∀ node, quoted nodeId = some node → node.length ≤ 462 :=
  ⟨fun h _ hnode ↦ le_of_pushFits h hnode, pushFits_of_le⟩

/-- A node id of 461 letters is accepted, and some push event of that node does not fit. -/
theorem long_node_id_overruns :
    (WireDemo.node (bytesOf (String.ofList (List.replicate 461 'a')))).Accepted WireDemo.libs ∧
      ¬ PushFits (bytesOf (String.ofList (List.replicate 461 'a'))) := by
  refine ⟨WireDemo.accepted _, fun h ↦ ?_⟩
  have hle := le_of_pushFits h (quoted_bytesOf _)
  have hplain : ∀ c ∈ (String.ofList (List.replicate 461 'a')).toList, PlainChar c := by
    intro c hc
    rw [String.toList_ofList] at hc
    rw [List.eq_of_mem_replicate hc]
    decide
  rw [length_string hplain, String.length_ofList, List.length_replicate] at hle
  omega

end Nexo
