import Nexo.Lib.Chunks
import Nexo.Service.Conversation
import Nexo.Service.Paging

/-!
# Reading conversations

Three services read the conversations of a user, each in its own way: `conversation.List` a page of
rows and then their last messages in one batch, joined again by conversation id; `conversation.Get`
one row and one message; `message.MaxSeqs` the rows of a page alone. They are functions of what they
read from the store (`Reader`), which may fail at every read.
-/

namespace Nexo

open Conv Errcode

/-- What the three read from the store. -/
structure Reader where
  getUserConversationRow : String → String → Except StoreErr UserConversationRow
  listUserConversations : Lister
  getMessages : List (String × Int) → Except StoreErr (List Message)

namespace Conversation

/-- `conversation.Item` with its `LastMessage`. -/
structure FullItem extends Item where
  lastMessage : Option Dto.Message
  deriving DecidableEq

/-! ### Get -/

/-- `GetKey` -/
structure GetKey where
  conversationId : String := ""
  peerUserId : String := ""
  groupId : String := ""

/-- `GetKey.resolve` -/
def GetKey.resolve (k : GetKey) (userId : String) : Except Err String :=
  if [k.conversationId != "", k.peerUserId != "", k.groupId != ""].count true ≠ 1 then
    .error (errInvalidParam.withMessage
      "exactly one of conversation_id, peer_user_id or group_id is required")
  else if k.conversationId ≠ "" then .ok k.conversationId
  else if k.groupId ≠ "" then .ok (Conv.group k.groupId)
  else if k.peerUserId = userId then
    .error (errInvalidParam.withMessage "peer_user_id must not be the caller")
  else .ok (Conv.single userId k.peerUserId)

/-- `Service.Get`; `GetResult` is the item. -/
def get (st : Reader) (userId : String) (key : GetKey) (withLastMessage : Bool) :
    Except Err FullItem :=
  match key.resolve userId with
  | .error err => .error err
  | .ok conversationId =>
    match st.getUserConversationRow userId conversationId with
    | .error .notFound => .error errConversationNotFound
    | .error e => .error (errStoreFailed.wrap (.store e))
    | .ok row =>
      let item := itemFromRow row
      match item.lastMessageKey with
      | none => .ok { item with lastMessage := none }
      | some k =>
        if !withLastMessage then .ok { item with lastMessage := none }
        else
          match st.getMessages [k] with
          | .error e => .error (errStoreFailed.wrap (.store e))
          | .ok msgs => .ok { item with lastMessage := msgs.head?.map Dto.messageFromStore }

/-! ### List -/

/-- `ListResult` -/
structure ListResult where
  conversations : List FullItem
  nextCursor : String
  hasMore : Bool

/-- `lo.SliceToMap` by conversation id: of several messages the last one stays. -/
def byConv (msgs : List Message) (conversationId : String) : Option Message :=
  msgs.reverse.find? fun m ↦ m.conversationId = conversationId

/-- `Service.List` -/
def list (st : Reader) (userId cursor : String) (limit pageMax : Int) (withLastMessage : Bool) :
    Except Err ListResult :=
  match listPage st.listUserConversations userId cursor limit pageMax with
  | .error err => .error err
  | .ok (rows, next, hasMore) =>
    let items := rows.map itemFromRow
    let keys := if withLastMessage then items.filterMap Item.lastMessageKey else []
    if keys.isEmpty then
      .ok { conversations := items.map fun i ↦ { i with lastMessage := none }, nextCursor := next,
            hasMore }
    else
      match st.getMessages keys with
      | .error e => .error (errStoreFailed.wrap (.store e))
      | .ok msgs =>
        .ok { conversations := items.map fun i ↦
                { i with lastMessage := (byConv msgs i.conversationId).map Dto.messageFromStore },
              nextCursor := next, hasMore }

end Conversation

namespace Message

/-- `MaxSeqsResult` -/
structure MaxSeqsResult where
  items : List MaxSeqItem
  nextCursor : String
  hasMore : Bool

/-- `Service.MaxSeqs` -/
def maxSeqs (st : Reader) (userId cursor : String) (limit pageMax : Int) :
    Except Err MaxSeqsResult :=
  match listPage st.listUserConversations userId cursor limit pageMax with
  | .error err => .error err
  | .ok (rows, next, hasMore) =>
    .ok { items := rows.map maxSeqItem, nextCursor := next, hasMore }

end Message

/-! ### The store -/

/-- `GetMessages` of the store, in chunks of `size` keys: the rows of each chunk in turn. -/
def Db.getMessages (d : Db) (size : ℕ) (keys : List (String × Int)) : List Message :=
  (keys.toChunksAux (size - 1) 0).2.flatMap fun chunk ↦
    d.messages.rows.filter fun m ↦ (m.conversationId, m.seq) ∈ chunk

/-- **`GetMessages` finds the stored messages of its keys**, however it cuts them into chunks. -/
theorem Db.mem_getMessages {d : Db} {size : ℕ} {keys : List (String × Int)} {m : Message} :
    m ∈ d.getMessages size keys ↔ m ∈ d.messages.rows ∧ (m.conversationId, m.seq) ∈ keys := by
  have hkeys : (m.conversationId, m.seq) ∈ keys ↔
      ∃ chunk ∈ (keys.toChunksAux (size - 1) 0).2, (m.conversationId, m.seq) ∈ chunk := by
    rw [← List.mem_flatten, Chunks.flatten_chunks]
  rw [Db.getMessages, List.mem_flatMap, hkeys]
  constructor
  · rintro ⟨chunk, hchunk, hm⟩
    obtain ⟨hrow, hkey⟩ := List.mem_filter.1 hm
    exact ⟨hrow, chunk, hchunk, of_decide_eq_true hkey⟩
  · rintro ⟨hrow, chunk, hchunk, hkey⟩
    exact ⟨chunk, hchunk, List.mem_filter.2 ⟨hrow, decide_eq_true hkey⟩⟩

end Nexo
