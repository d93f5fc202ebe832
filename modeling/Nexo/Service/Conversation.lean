import Nexo.Service.Group

/-!
# The conversation service

`service/conversation`: the read cursor, the list item built from a row, and the preferences. No
transaction is opened here: `MarkRead` reads a row in one statement and advances the cursor in
another, and other calls may commit in between.
-/

namespace Nexo.Conversation

open Relational Errcode

/-- `Service.MarkRead` -/
def markRead (userId readerConnId conversationId : String) (readSeq : Int) :
    Call (Except Err Int) := do
  if readSeq < 1 then return .error (errInvalidParam.withMessage "read_seq must be >= 1")
  else
    match ← query (.getUserConversationRow userId conversationId) with
    | .error .notFound => return .error errNoPermission
    | .error e => return .error (errStoreFailed.wrap (.store e))
    | .ok row =>
      -- the row's spelling is authoritative
      let conversationId := row.conversationId
      let target := min readSeq (Conv.visibleMax row.toUserConversation row.convMaxSeq)
      if target ≤ row.readSeq then return .ok row.readSeq
      else
        match ← update (.advanceReadSeq userId conversationId target) with
        | .error e => return .error (errStoreFailed.wrap (.store e))
        | .ok () =>
          ext (.conversationRead ⟨userId, readerConnId, conversationId, target⟩)
          return .ok target

/-- `conversation.Item`, without the message that `List` and `Get` attach. -/
structure Item where
  conversationId : String
  type : Int
  peerUserId : String
  groupId : String
  minSeq : Int
  /-- visible max -/
  maxSeq : Int
  readSeq : Int
  unread : Int
  recvMsgOpt : Int
  isPinned : Bool
  extra : String
  updatedAt : Int
  deriving DecidableEq

/-- `itemFromRow` -/
def itemFromRow (r : UserConversationRow) : Item :=
  let visibleMax := Conv.visibleMax r.toUserConversation r.convMaxSeq
  { conversationId := r.conversationId, type := r.type, peerUserId := r.peerUserId,
    groupId := r.groupId, minSeq := r.minSeq, maxSeq := visibleMax, readSeq := r.readSeq,
    unread := max (visibleMax - r.readSeq) 0, recvMsgOpt := r.recvMsgOpt, isPinned := r.isPinned,
    extra := r.extra, updatedAt := r.updatedAt }

/-- `Item.lastMessageKey`: conversation and sequence number of the visible max, if the visible range
holds a message. -/
def Item.lastMessageKey (i : Item) : Option (String × Int) :=
  if i.maxSeq < i.minSeq then none else some (i.conversationId, i.maxSeq)

/-- `Service.SetOpt` -/
def setOpt (userId conversationId : String) (recvMsgOpt : Option Int) (isPinned : Option Bool) :
    Call (Except Err Unit) := do
  if recvMsgOpt.any fun n ↦ n ≠ 0 && n ≠ 1 then
    return .error (errInvalidParam.withMessage "recv_msg_opt must be 0 or 1")
  else
    match ← update (.setUserConversationOpt userId conversationId recvMsgOpt isPinned) with
    | .error .notFound => return .error errNoPermission
    | .error e => return .error (errStoreFailed.wrap (.store e))
    | .ok () => return .ok ()

end Nexo.Conversation
