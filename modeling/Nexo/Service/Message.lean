import Nexo.Service.Outside
import Nexo.Identity

/-!
# The message service

`service/message`: `Send` and `Pull`, statement by statement. The order of the statements, which of
them run inside the transaction, and every early return are the source's.
-/

namespace Nexo

open Relational Errcode

/-- What the services are configured with, and the library functions they call. -/
structure Config where
  /-- `MaxContentBytes` -/
  maxContentBytes : Int
  /-- `maxMembers` of the group service -/
  maxMembers : Int
  /-- whether a `Pusher` is installed -/
  pusher : Bool
  /-- `uuid.Parse` followed by `String` -/
  uuidString : String → Option String
  /-- `jsontext.Value.IsValid` -/
  jsonValid : String → Bool

namespace Message

structure Ack where
  serverMsgId : String
  conversationId : String
  seq : Int
  sendTime : Int
  deriving DecidableEq

structure SendInput where
  senderId : String
  /-- empty for HTTP and internal sends -/
  senderConnId : String
  clientMsgId : String
  sessionType : Int
  recvId : String
  groupId : String
  contentType : Int
  content : String
  senderRead : Bool
  /-- internal channel: no per-user send limit -/
  unlimited : Bool
  deriving DecidableEq

/-! ### Validation -/

/-- `unicode.IsSpace` -/
def isSpace (c : Char) : Bool :=
  (0x9 ≤ c.toNat && c.toNat ≤ 0xd) || c.toNat = 0x20 || c.toNat = 0x85 || c.toNat = 0xa0 ||
    c.toNat = 0x1680 || (0x2000 ≤ c.toNat && c.toNat ≤ 0x200a) || c.toNat = 0x2028 ||
    c.toNat = 0x2029 || c.toNat = 0x202f || c.toNat = 0x205f || c.toNat = 0x3000

/-- `strings.TrimRightFunc(s, unicode.IsSpace)` -/
def trimRight (s : String) : String :=
  String.ofList (s.toList.reverse.dropWhile isSpace).reverse

/-- `msgbody.ValidType` -/
def validType (t : Int) : Bool := t ∈ [(1 : Int), 2, 3, 4, 5, 100]

/-- `Service.validate`: the first rule the input breaks. -/
def validate (cfg : Config) (inp : SendInput) : Option Err :=
  if inp.clientMsgId = "" ∨ inp.clientMsgId.utf8ByteSize > 64 then
    some (errInvalidParam.withMessage "client_msg_id: 1-64 bytes")
  else if trimRight inp.clientMsgId ≠ inp.clientMsgId then
    some (errInvalidParam.withMessage "client_msg_id must not end in whitespace")
  else if inp.sessionType = conversationSingle ∧ ¬ Identity.valid cfg.uuidString inp.recvId then
    some (errInvalidParam.withMessage "recv_id is required for single chat")
  else if inp.sessionType = conversationSingle ∧ inp.recvId = inp.senderId then
    some (errInvalidParam.withMessage "cannot message yourself")
  else if inp.sessionType = conversationGroup ∧ inp.groupId = "" then
    some (errInvalidParam.withMessage "group_id is required for group chat")
  else if inp.sessionType ≠ conversationSingle ∧ inp.sessionType ≠ conversationGroup then
    some (errInvalidParam.withMessage "session_type must be 1 or 2")
  else if ¬ validType inp.contentType then
    some (errInvalidParam.withMessage "unknown content_type")
  else if (inp.content.utf8ByteSize : Int) > cfg.maxContentBytes then
    some errMessageContentTooLong
  else if ¬ cfg.jsonValid inp.content then
    some (errInvalidParam.withMessage "content must be a JSON value")
  else none

/-! ### Parts of Send -/

/-- `ack` -/
def ack (m : Message) : Ack where
  serverMsgId := m.serverMsgId
  conversationId := m.conversationId
  seq := m.seq
  sendTime := m.sendTime

/-- The event `publish` builds. -/
def pushEvent (m : Message) (senderConnId : String) : PushEvent where
  conversationId := m.conversationId
  sessionType := m.sessionType
  senderId := m.senderId
  senderConnId := senderConnId
  recvId := m.recvId
  groupId := m.groupId
  message := Dto.messageFromStore m

/-- `Service.publish` -/
def publish (m : Message) (senderConnId : String) : Call PushEvent := do
  ext (.publish (pushEvent m senderConnId))
  return pushEvent m senderConnId

/-- `Service.republish`; the counter it bumps is read by nobody here. -/
def republish (m : Message) (senderConnId : String) : Call Unit := do
  let _ ← publish m senderConnId
  return ()

/-- `Service.normalizeDestination`: the conversation, the input with the stored spelling of its
destination and the other session type's field cleared, and the group row read. -/
def normalizeDestination (inp : SendInput) :
    Call (Except Err (String × SendInput × Option Group)) := do
  if inp.sessionType = conversationSingle then
    match ← query (.getUser inp.recvId) with
    | .error .notFound => return .error errUserNotFound
    | .error e => return .error (errStoreFailed.wrap (.store e))
    | .ok u =>
      let inp := { inp with recvId := u.id, groupId := "" }
      return .ok (Conv.single inp.senderId inp.recvId, inp, none)
  else
    match ← query (.getGroup inp.groupId) with
    | .error .notFound => return .error errGroupNotFound
    | .error e => return .error (errStoreFailed.wrap (.store e))
    | .ok g =>
      let inp := { inp with groupId := g.id, recvId := "" }
      return .ok (Conv.group inp.groupId, inp, some g)

/-- `Service.checkGroupSend` -/
def checkGroupSend (g : Group) (userId : String) : Call (Except Err Unit) := do
  if g.status = groupStatusDismissed then return .error errGroupDismissed
  else
    match ← query (.getGroupMember g.id userId) with
    | .error .notFound => return .error errNotGroupMember
    | .error e => return .error (.store e)
    | .ok _ => return .ok ()

/-- `Service.checkMembership` -/
def checkMembership (groupId userId : String) : Call (Except Err Unit) := do
  match ← query (.getGroup groupId) with
  | .error e => return .error (.store e)
  | .ok g => checkGroupSend g userId

/-- `Service.republishAllowed`; `g` is `none` for a single chat only. -/
def republishAllowed (inp : SendInput) (g : Option Group) : Call Bool := do
  if inp.sessionType ≠ conversationGroup then return true
  else
    match g with
    | none => return false
    | some g =>
      match ← checkGroupSend g inp.senderId with
      | .ok () => return true
      | .error _ => return false

/-- `in.Unlimited || s.sendLimit.Allow(in.SenderId, s.now())`: the clock is read only for a limited
sender. -/
def republishQuota (inp : SendInput) : Call Bool := do
  if inp.unlimited then return true
  else
    let now ← ext .now
    ext (.allow inp.senderId now)

/-- `in.Unlimited || s.sendLimit.Allow(in.SenderId, now)` -/
def sendQuota (inp : SendInput) (now : Time) : Call Bool := do
  if inp.unlimited then return true else ext (.allow inp.senderId now)

/-- `Service.touchConversations` -/
def touchConversations (inp : SendInput) (conv : String) (seq : Int) (now : Time) :
    Call (Except StoreErr Unit) := do
  let senderRead : Int := if inp.senderRead then seq else 0
  if inp.sessionType = conversationSingle then
    match ← update (.touchUserConversation
        { ownerId := inp.senderId, conversationId := conv, type := inp.sessionType,
          peerUserId := inp.recvId, updatedAt := now } senderRead) with
    | .error e => return .error e
    | .ok () => update (.touchUserConversation
        { ownerId := inp.recvId, conversationId := conv, type := inp.sessionType,
          peerUserId := inp.senderId, updatedAt := now } 0)
  else
    match ← update (.touchConversationMembers conv now) with
    | .error e => return .error e
    | .ok () =>
      if senderRead = 0 then return .ok ()
      else update (.advanceReadSeq inp.senderId conv senderRead)

/-- The membership check of the transaction, made for a group only. -/
def checkSender (inp : SendInput) : Call (Except Err Unit) := do
  if inp.sessionType = conversationGroup then checkMembership inp.groupId inp.senderId
  else return .ok ()

/-- The message as the transaction completes it from the locked conversation row. -/
def place (msg : Message) (c : Conversation) (now : Time) : Message :=
  let now := if c.updatedAt > now then c.updatedAt else now
  { msg with sendTime := now, createdAt := now, seq := c.maxSeq + 1 }

/-- The callback `Send` hands to `WithTx`, with the captured `duplicate` and `msg`. -/
def sendTx (inp : SendInput) (conversationId : String) (msg : Message) (now : Time) :
    Call (Except Err Unit × Bool × Message) := do
  match ← lockConversation conversationId inp.sessionType inp.groupId now with
  | .error e => return (.error (.store e), false, msg)
  | .ok c =>
    match ← checkSender inp with
    | .error err => return (.error err, false, msg)
    | .ok () =>
      let msg := place msg c now
      match ← update (.insertMessage msg) with
      | .error e => return (.error (.store e), false, msg)
      | .ok false => return (.error .rollback, true, msg)
      | .ok true =>
        match ← update (.setConversationMaxSeq conversationId msg.seq msg.sendTime) with
        | .error e => return (.error (.store e), false, msg)
        | .ok () =>
          match ← touchConversations inp conversationId msg.seq msg.sendTime with
          | .error e => return (.error (.store e), false, msg)
          | .ok () => return (.ok (), false, msg)

/-- A retry that finds its message before the transaction. -/
def sendRetry (inp : SendInput) (group : Option Group) (m : Message) : Call (Except Err Ack) := do
  if ← republishAllowed inp group then
    if ← republishQuota inp then
      republish m inp.senderConnId
      return .ok (ack m)
    else return .ok (ack m)
  else return .ok (ack m)

/-- The insertion did nothing: some unique key was taken. -/
def sendDuplicate (inp : SendInput) (conversationId : String) : Call (Except Err Ack) := do
  match ← query (.getMessageByClientId conversationId inp.senderId inp.clientMsgId) with
  | .error .notFound => return .error (errSeqAllocFailed.wrap (.store .notFound))
  | .error e => return .error (errStoreFailed.wrap (.store e))
  | .ok m =>
    republish m inp.senderConnId
    return .ok (ack m)

/-- After the commit. -/
def sendCommitted (cfg : Config) (inp : SendInput) (msg : Message) : Call (Except Err Ack) := do
  let ev ← publish msg inp.senderConnId
  if cfg.pusher then
    ext (.spawnOfflinePush ev)
    return .ok (ack msg)
  else return .ok (ack msg)

/-- The message as it enters the transaction: its sequence number and times are still unset. -/
def newMessage (inp : SendInput) (conversationId serverMsgId : String) : Message where
  conversationId := conversationId
  seq := 0
  serverMsgId := serverMsgId
  clientMsgId := inp.clientMsgId
  senderId := inp.senderId
  recvId := inp.recvId
  groupId := inp.groupId
  sessionType := inp.sessionType
  contentType := inp.contentType
  content := inp.content
  sendTime := 0
  createdAt := 0

/-- A first attempt: quota, a fresh id, the transaction, and what follows it. -/
def sendNew (cfg : Config) (inp : SendInput) (conversationId : String) : Call (Except Err Ack) := do
  let now ← ext .now
  if ← sendQuota inp now then
    let serverMsgId ← ext .newUuid
    let msg := newMessage inp conversationId serverMsgId
    match ← withTx (false, msg) (sendTx inp conversationId msg now) with
    | (_, true, _) => sendDuplicate inp conversationId
    | (.error err, false, _) => return .error (err.or errMessageSendFailed)
    | (.ok (), false, msg) => sendCommitted cfg inp msg
  else return .error (errTooManyRequests.withMessage "message send rate limit")

/-- `Service.Send` -/
def send (cfg : Config) (inp : SendInput) : Call (Except Err Ack) := do
  match validate cfg inp with
  | some err => return .error err
  | none =>
    match ← normalizeDestination inp with
    | .error err => return .error err
    | .ok (conversationId, inp, group) =>
      match ← query (.getMessageByClientId conversationId inp.senderId inp.clientMsgId) with
      | .ok m => sendRetry inp group m
      | .error .notFound => sendNew cfg inp conversationId
      | .error e => return .error (errStoreFailed.wrap (.store e))

/-! ### Pull -/

structure PullInput where
  userId : String
  conversationId : String
  beginSeq : Int
  endSeq : Int
  limit : Int
  deriving DecidableEq

structure PullResult where
  messages : List Dto.Message
  hasMore : Bool
  deriving DecidableEq

/-- `pgstore`'s conversion `int32(limit)` of a row limit. -/
def int32 (n : Int) : Int := (n + 2 ^ 31) % 2 ^ 32 - 2 ^ 31

/-- The page size `Pull` works with. -/
def pullLimit (limit pageMax : Int) : Int :=
  let pageMax := max pageMax 1
  if limit ≤ 0 ∨ limit > pageMax then pageMax else limit

/-- The page cut from one row more than its size. -/
def pullPage (limit : Int) (rows : List Message) : PullResult :=
  ⟨(rows.take limit.toNat).map Dto.messageFromStore, rows.length > limit⟩

/-- `Service.Pull` -/
def pull (inp : PullInput) (pageMax : Int) : Call (Except Err PullResult) := do
  if inp.beginSeq < 1 ∨ inp.endSeq < inp.beginSeq then
    return .error (errInvalidParam.withMessage "need 1 <= begin_seq <= end_seq")
  else
    let limit := pullLimit inp.limit pageMax
    match ← query (.getUserConversationRow inp.userId inp.conversationId) with
    | .error .notFound => return .error errNoPermission
    | .error e => return .error (errStoreFailed.wrap (.store e))
    | .ok uc =>
      let (begin_, end_) :=
        Conv.visibleRange uc.toUserConversation uc.convMaxSeq inp.beginSeq inp.endSeq
      if begin_ > end_ then return .ok ⟨[], false⟩
      else
        match ← query (.listMessages inp.conversationId begin_ end_ (int32 (limit + 1))) with
        | .error e => return .error (errMessagePullFailed.wrap (.store e))
        | .ok rows => return .ok (pullPage limit rows)

/-! ### Recipients -/

/-- `Service.Recipients`, given the rosters of the groups. -/
def recipients (roster : String → List String) (ev : PushEvent) : List String :=
  if ev.sessionType = conversationSingle then [ev.senderId, ev.recvId] else roster ev.groupId

/-! ### MaxSeqs -/

structure MaxSeqItem where
  conversationId : String
  maxSeq : Int
  minSeq : Int
  readSeq : Int
  deriving DecidableEq

/-- The item `Service.MaxSeqs` builds from a row. -/
def maxSeqItem (r : UserConversationRow) : MaxSeqItem where
  conversationId := r.conversationId
  maxSeq := Conv.visibleMax r.toUserConversation r.convMaxSeq
  minSeq := r.minSeq
  readSeq := r.readSeq

end Message

end Nexo
