import Nexo.Client.Sync
import Nexo.Lib.Keyed

/-!
# The web client

`web/src/client/client.ts`: what `ImClient` keeps and what its methods do between two `await`s. A
`Map` is a list in the order of its keys, and so is the record `messages`, whose keys are
enumerated; the records that are only read and written at an id (`cursors`, `readRequests`) are
partial functions. Status, error texts, timers and the nicknames of profiles play no part in what
follows.
-/

namespace Nexo.Web

open Keyed List
open Nexo.Client (Bounds)
open Nexo.Message (PullResult Ack)

/-! ### Data -/

/-- `Conversation` -/
structure Conversation extends Nexo.Message.MaxSeqItem where
  type : Int
  peerUserId : Option String
  groupId : Option String
  unread : Int
  updatedAt : Int
  lastMessage : Option Dto.Message
  deriving DecidableEq

/-- `Target`, without its title. -/
structure Target where
  conversationId : String
  sessionType : Int
  recvId : Option String
  groupId : Option String
  deriving DecidableEq

/-- The status of a pending message. -/
inductive PendingStatus where
  | sending
  | failed
  deriving DecidableEq

/-- `PendingMessage` -/
structure PendingMessage where
  clientMsgId : String
  target : Target
  text : String
  sendTime : Int
  status : PendingStatus
  deriving DecidableEq

/-- The fields of `ImClient` and of its snapshot. A controller is the number of its signal. -/
structure ImClient where
  userId : String
  running : Bool := false
  controller : ℕ := 0
  /-- the signals that are aborted -/
  aborted : List ℕ := []
  conversations : List Conversation := []
  messages : List (String × List Dto.Message) := []
  pending : List PendingMessage := []
  active : Option Target := none
  loadingHistory : Bool := false
  historyRequest : ℕ := 0
  /-- the users whose profile is known -/
  profiles : List String := []
  expandedHistory : List String := []
  cursors : String → Option Int := fun _ ↦ none
  /-- the task that `refresh` runs -/
  refreshPromise : Option ℕ := none
  dirty : Bool := false
  readRequests : String → Option Int := fun _ ↦ none

/-- The shape check of `parseMessage` that the types do not make. -/
def parseMessage (message : Dto.Message) : Option Dto.Message :=
  if message.conversationId = "" ∨ message.seq < 1 ∨
      (message.sessionType ≠ 1 ∧ message.sessionType ≠ 2) then none
  else some message

/-- The number of messages of a conversation that is kept unless its history is expanded. -/
def shownMessages : ℕ := 100

/-! ### Messages by number -/

/-- `mergeMessages` -/
def mergeMessages (existing incoming : List Dto.Message) : List Dto.Message :=
  let bySeq := existing.foldl (fun bySeq message ↦ setKey (·.seq) message bySeq) []
  let bySeq := incoming.foldl (fun bySeq message ↦ setKey (·.seq) message bySeq) bySeq
  bySeq.insertionSort fun a b ↦ a.seq ≤ b.seq

/-- The numbers of messages. -/
def seqs (messages : List Dto.Message) : List Int := messages.map (·.seq)

/-- A merge goes up, and the last message of a number stays, incoming ones before existing ones. -/
theorem mergeMessages_spec (existing incoming : List Dto.Message) :
    Ascending (·.seq) (mergeMessages existing incoming) ∧
      ∀ s, getKey (·.seq) s (mergeMessages existing incoming) =
        (lastOf (·.seq) s incoming).or (lastOf (·.seq) s existing) := by
  have hnodup : ((incoming.foldl (fun bySeq message ↦ setKey (·.seq) message bySeq)
      (existing.foldl (fun bySeq message ↦ setKey (·.seq) message bySeq) [])).map (·.seq)).Nodup :=
    nodup_foldl_setKey (nodup_foldl_setKey nodup_nil)
  refine ⟨ascending_insertionSort hnodup, fun s ↦ ?_⟩
  rw [mergeMessages, getKey_insertionSort hnodup, getKey_foldl_setKey, getKey_foldl_setKey, getKey_nil,
    Option.or_none]

/-- What is merged was there before or is new. -/
theorem mem_of_mem_mergeMessages {existing incoming : List Dto.Message} {message : Dto.Message}
    (h : message ∈ mergeMessages existing incoming) : message ∈ existing ∨ message ∈ incoming := by
  obtain ⟨hasc, hget⟩ := mergeMessages_spec existing incoming
  have hfound := getKey_of_nodup hasc.nodup h
  rw [hget, Option.or_eq_some_iff] at hfound
  rcases hfound with hnew | ⟨-, hold⟩
  · exact .inr (mem_of_lastOf hnew).1
  · exact .inl (mem_of_lastOf hold).1

/-- Merging adds numbers and drops none. -/
theorem mem_seqs_mergeMessages {existing incoming : List Dto.Message} {s : Int} :
    s ∈ seqs (mergeMessages existing incoming) ↔ s ∈ seqs existing ∨ s ∈ seqs incoming := by
  obtain ⟨hasc, hget⟩ := mergeMessages_spec existing incoming
  rw [seqs, seqs, seqs, ← isSome_lastOf, ← isSome_lastOf, ← isSome_lastOf, lastOf_of_nodup hasc.nodup,
    hget, Option.isSome_or, Bool.or_eq_true, or_comm]

namespace ImClient

variable (c : ImClient)

/-- `cursors[id] ?? 0` -/
def cursor (id : String) : Int := (c.cursors id).getD 0

/-- `messages[id] ?? []` -/
def messagesOf (id : String) : List Dto.Message :=
  ((getKey Prod.fst id c.messages).map Prod.snd).getD []

def conversation? (id : String) : Option Conversation :=
  getKey (·.conversationId) id c.conversations

/-! ### `merge` and `applyPush` -/

/-- The messages of the conversation before they are trimmed. -/
def mergedMessages (id : String) (batch : List Dto.Message) : List Dto.Message :=
  mergeMessages (c.messagesOf id) batch

/-- How many of them `slice` drops. -/
def overflow (id : String) (batch : List Dto.Message) : ℕ :=
  if id ∈ c.expandedHistory then 0 else (c.mergedMessages id batch).length - shownMessages

/-- The `client_msg_id`s that a batch confirms. -/
def confirmed (batch : List Dto.Message) : List String :=
  (batch.filter (·.senderId = c.userId)).map (·.clientMsgId)

/-- `ImClient.merge` -/
def merge (id : String) (batch : List Dto.Message) : ImClient :=
  { c with
    messages :=
      if batch.isEmpty then c.messages
      else setKey Prod.fst (id, (c.mergedMessages id batch).drop (c.overflow id batch)) c.messages
    pending :=
      if batch.isEmpty then c.pending
      else c.pending.filter fun p ↦
        p.target.conversationId ≠ id ∨ p.clientMsgId ∉ c.confirmed batch }

/-- The row of the conversation after a push. -/
def pushedRow (message : Dto.Message) (item : Conversation) : Conversation :=
  let maxSeq := max item.maxSeq message.seq
  { item with
    maxSeq
    lastMessage := some message
    unread := max 0 (maxSeq - item.readSeq)
    updatedAt := max item.updatedAt message.sendTime }

/-- What becomes of a pushed message. -/
inductive Pushed where
  /-- `applyPush` returns false, and the caller schedules a sync -/
  | later
  /-- the client has it -/
  | known
  | applied (c : ImClient)

/-- `ImClient.applyPush` -/
def applyPush (data : Dto.Message) : Pushed :=
  match parseMessage data with
  | none => .later
  | some message =>
    match c.conversation? message.conversationId with
    | none => .later
    | some conversation =>
      if message.seq ≤ c.cursor message.conversationId then .known
      else if message.seq ≠ c.cursor message.conversationId + 1 ∨
          message.seq < conversation.minSeq then .later
      else
        .applied <| merge
          { c with
            cursors := Function.update c.cursors message.conversationId (some message.seq)
            -- a round that fetched its bounds before this push clamps the cursor back down
            dirty := c.dirty || c.refreshPromise.isSome
            conversations := c.conversations.map fun item ↦
              if item.conversationId = message.conversationId then pushedRow message item
              else item }
          message.conversationId [message]

/-- **A push is applied at the cursor** and moves it by one. -/
theorem applyPush_applied {c c' : ImClient} {message : Dto.Message}
    (h : c.applyPush message = .applied c') :
    message.seq = c.cursor message.conversationId + 1 ∧
      ∃ (dirty : Bool) (conversations : List Conversation), c' = merge
        { c with
          cursors := Function.update c.cursors message.conversationId (some message.seq)
          dirty
          conversations }
        message.conversationId [message] := by
  rw [applyPush] at h
  cases hparse : parseMessage message with
  | none =>
    rw [hparse] at h
    cases h
  | some message' =>
    obtain rfl : message = message' := by
      rw [parseMessage] at hparse
      split_ifs at hparse
      exact Option.some.inj hparse
    simp only [hparse] at h
    cases hconv : c.conversation? message.conversationId with
    | none =>
      rw [hconv] at h
      cases h
    | some conversation =>
      simp only [hconv] at h
      split_ifs at h with hknown hlater
      exact ⟨not_not.1 (not_or.1 hlater).1, _, _, (Pushed.applied.inj h).symm⟩

/-! ### `syncOnce` -/

/-- The range of a conversation. -/
def rangeOf (bounds : List Bounds) (id : String) : Option Bounds := getKey (·.conversationId) id bounds

/-- The messages of a range. -/
def inRange (range : Bounds) (messages : List Dto.Message) : List Dto.Message :=
  messages.filter fun message ↦ range.minSeq ≤ message.seq ∧ message.seq ≤ range.maxSeq

/-- The messages that the bounds leave. -/
def prunedMessages (bounds : List Bounds) : List (String × List Dto.Message) :=
  c.messages.filterMap fun (id, messages) ↦
    (rangeOf bounds id).map fun range ↦ (id, inRange range messages)

/-- The conversations that lose messages up to their cursor for want of bounds. -/
def unbounded (bounds : List Bounds) : List String :=
  (c.messages.filter fun (id, messages) ↦
    (rangeOf bounds id).isNone && messages.any fun message ↦ message.seq ≤ c.cursor id).map Prod.fst

/-- The conversations that lose messages above their bounds, up to their cursor. -/
def ahead (bounds : List Bounds) : List String :=
  (c.messages.filter fun (id, messages) ↦ (rangeOf bounds id).any fun range ↦
    messages.any fun message ↦ range.maxSeq < message.seq ∧ message.seq ≤ c.cursor id).map Prod.fst

/-- The row that the list and the bounds give. -/
def syncedRow (bounds : List Bounds) (conversation : Conversation) : Conversation :=
  let range := rangeOf bounds conversation.conversationId
  let visible : Bounds := range.getD conversation.toMaxSeqItem
  let previous := c.conversation? conversation.conversationId
  let read := max (max ((range.map (·.readSeq)).getD 0) conversation.readSeq)
    ((previous.map (·.readSeq)).getD 0)
  { conversation with
    conversationId := visible.conversationId
    minSeq := visible.minSeq
    maxSeq := visible.maxSeq
    lastMessage := conversation.lastMessage.filter fun last ↦
      visible.minSeq ≤ last.seq ∧ last.seq ≤ visible.maxSeq
    readSeq := read
    unread := max 0 (visible.maxSeq - read) }

/-- The update that follows the last page of bounds. -/
def prune (conversations : List Conversation) (bounds : List Bounds) : ImClient :=
  { c with
    messages := c.prunedMessages bounds
    conversations := conversations.map (c.syncedRow bounds) }

/-- Where `syncRange` starts. -/
def startLocal (range : Bounds) : Int :=
  min (max (c.cursor range.conversationId) (range.minSeq - 1)) range.maxSeq

/-- The `commit` that `syncOnce` hands to `syncRange`. -/
def commit (id : String) (batch : List Dto.Message) (local_ : Int) : ImClient :=
  let c := c.merge id batch
  { c with cursors := Function.update c.cursors id (some local_) }

/-- The users whose profile `syncOnce` asks for. -/
def missing (list : List Conversation) : List String :=
  (list.filterMap (·.peerUserId)).eraseDups.filter fun id ↦ id ≠ "" ∧ id ∉ c.profiles

/-! ### `fetchHistory` -/

/-- The first query of `fetchHistory`, if there is one. -/
def historyBegin (range : Bounds) (end_ : Int) : Option Int :=
  if end_ < range.minSeq ∨ end_ < 1 then none else some (max range.minSeq (end_ - 99))

/-- What `fetchHistory` merges from a page. -/
def historyBatch (range : Bounds) (page : PullResult) : List Dto.Message :=
  let current : Bounds :=
    ((c.conversation? range.conversationId).map (·.toMaxSeqItem)).getD range
  page.messages.filter fun message ↦
    message.conversationId = range.conversationId ∧
      current.minSeq ≤ message.seq ∧ message.seq ≤ current.maxSeq

/-- Where `fetchHistory` goes on after a page: at a number, not at all, or it throws. -/
def historyNext (begin_ end_ : Int) (page : PullResult) : Except Unit (Option Int) :=
  if page.hasMore then
    match page.messages.getLast? with
    | none => .error ()
    | some last =>
      if last.seq < begin_ then .error ()
      else .ok (if last.seq + 1 ≤ end_ then some (last.seq + 1) else none)
  else .ok none

/-- Up to where `loadOlder` asks. -/
def olderEnd (id : String) (range : Bounds) : Int :=
  ((c.messagesOf id).head?.map (·.seq)).getD (range.maxSeq + 1) - 1

/-! ### Receipts and sends -/

/-- `ImClient.applyRead` -/
def applyRead (id : String) (seq : Int) : ImClient :=
  { c with
    conversations := c.conversations.map fun conversation ↦
      if conversation.conversationId ≠ id then conversation
      else
        let read := max conversation.readSeq seq
        { conversation with readSeq := read, unread := max 0 (conversation.maxSeq - read) } }

/-- The `read_seq` that `markRead` sends, if it sends one. -/
def markRead (id : String) (seq : Int) : Option Int :=
  let read := min seq (c.cursor id)
  match c.conversation? id with
  | none => none
  | some conversation =>
    if read < 1 ∨ read ≤ max conversation.readSeq ((c.readRequests id).getD 0) then none
    else some read

theorem markRead_le_cursor {c : ImClient} {id : String} {seq read : Int}
    (h : c.markRead id seq = some read) : read ≤ c.cursor id := by
  rw [markRead] at h
  cases hconv : c.conversation? id with
  | none =>
    rw [hconv] at h
    cases h
  | some conversation =>
    simp only [hconv] at h
    split_ifs at h
    cases h
    exact min_le_right _ _

/-- The message that `transmit` builds from its acknowledgement. -/
def ackMessage (stringify : String → String) (pending : PendingMessage) (ack : Ack) : Dto.Message where
  serverMsgId := ack.serverMsgId
  clientMsgId := pending.clientMsgId
  conversationId := ack.conversationId
  seq := ack.seq
  sessionType := pending.target.sessionType
  senderId := c.userId
  recvId := pending.target.recvId.getD ""
  groupId := pending.target.groupId.getD ""
  contentType := 1
  content := stringify pending.text
  sendTime := ack.sendTime

/-! ### What becomes of the messages -/

variable {c} {id id' : String} {batch : List Dto.Message} {s : Int} {bounds : List Bounds}

@[simp] theorem merge_nil : c.merge id [] = c := rfl

theorem messages_merge (h : batch ≠ []) :
    (c.merge id batch).messages =
      setKey Prod.fst (id, (c.mergedMessages id batch).drop (c.overflow id batch)) c.messages := by
  rw [merge, if_neg (by simpa using h)]

theorem messagesOf_merge_self (h : batch ≠ []) :
    (c.merge id batch).messagesOf id = (c.mergedMessages id batch).drop (c.overflow id batch) := by
  have hget (entry : String × List Dto.Message) :
      getKey Prod.fst entry.1 (setKey Prod.fst entry c.messages) = some entry := getKey_setKey_self
  rw [messagesOf, messages_merge h, hget (id, _)]
  rfl

theorem messagesOf_merge_of_ne (h : id' ≠ id) :
    (c.merge id batch).messagesOf id' = c.messagesOf id' := by
  by_cases hb : batch = []
  · rw [hb, merge_nil]
  · rw [messagesOf, messagesOf, messages_merge hb, getKey_setKey_of_ne h]

theorem messagesOf_prune (found : List Conversation) (bounds : List Bounds) (id : String) :
    (c.prune found bounds).messagesOf id =
      ((rangeOf bounds id).map fun range ↦ inRange range (c.messagesOf id)).getD [] := by
  have hget : ∀ messages : List (String × List Dto.Message),
      getKey Prod.fst id (messages.filterMap fun (id, messages) ↦
        (rangeOf bounds id).map fun range ↦ (id, inRange range messages)) =
      (rangeOf bounds id).bind fun range ↦
        (getKey Prod.fst id messages).map fun (id, messages) ↦ (id, inRange range messages) := by
    intro messages
    induction messages with
    | nil => cases rangeOf bounds id <;> rfl
    | cons entry messages ih =>
      obtain ⟨key, kept⟩ := entry
      by_cases hkey : key = id
      · subst hkey
        cases hrange : rangeOf bounds key with
        | none => simpa [hrange] using ih
        | some range => simp [hrange, getKey_cons]
      · cases hrange : rangeOf bounds key with
        | none | some => simpa [hrange, getKey_cons, hkey] using ih
  simp only [messagesOf, prune, prunedMessages, hget]
  cases rangeOf bounds id with
  | none => rfl
  | some range =>
    cases getKey Prod.fst id c.messages with
    | none | some => rfl

theorem mem_seqs_inRange {range : Bounds} {messages : List Dto.Message} :
    s ∈ seqs (inRange range messages) ↔ s ∈ seqs messages ∧ range.minSeq ≤ s ∧ s ≤ range.maxSeq := by
  simp only [seqs, inRange, mem_map, mem_filter, decide_eq_true_eq]
  constructor
  · rintro ⟨message, ⟨hmem, hrange⟩, rfl⟩
    exact ⟨⟨message, hmem, rfl⟩, hrange⟩
  · rintro ⟨⟨message, hmem, rfl⟩, hrange⟩
    exact ⟨message, ⟨hmem, hrange⟩, rfl⟩

theorem exists_entry (h : s ∈ seqs (c.messagesOf id)) :
    ∃ entry ∈ c.messages, entry.1 = id ∧ ∃ message ∈ entry.2, message.seq = s := by
  obtain ⟨message, hmem, rfl⟩ := mem_map.1 h
  rw [messagesOf] at hmem
  cases hget : getKey Prod.fst id c.messages with
  | none =>
    rw [hget] at hmem
    cases hmem
  | some entry =>
    rw [hget] at hmem
    obtain ⟨hentry, hid⟩ := mem_of_getKey hget
    exact ⟨entry, hentry, hid, message, hmem, rfl⟩

/-- A conversation that loses messages for want of bounds is noted. -/
theorem cursor_lt_of_unbounded (h : c.unbounded bounds = []) (hid : rangeOf bounds id = none)
    (hs : s ∈ seqs (c.messagesOf id)) : c.cursor id < s := by
  obtain ⟨entry, hentry, rfl, message, hmem, rfl⟩ := exists_entry hs
  have hnot := filter_eq_nil_iff.1 (map_eq_nil_iff.1 h) entry hentry
  by_contra hle
  refine hnot ?_
  simp only [hid, Option.isNone_none, Bool.true_and, any_eq_true, decide_eq_true_eq]
  exact ⟨message, hmem, not_lt.1 hle⟩

theorem exists_rangeOf_of_ahead (h : id ∈ c.ahead bounds) :
    ∃ range ∈ bounds, range.conversationId = id := by
  obtain ⟨entry, hentry, rfl⟩ := mem_map.1 h
  cases hget : rangeOf bounds entry.1 with
  | none => simp [hget] at hentry
  | some range => exact ⟨range, mem_of_getKey hget⟩

/-- So is one that loses messages above its bounds. -/
theorem le_maxSeq_of_not_ahead {range : Bounds} (h : id ∉ c.ahead bounds)
    (hid : rangeOf bounds id = some range) (hs : s ∈ seqs (c.messagesOf id)) (hle : s ≤ c.cursor id) :
    
    s ≤ range.maxSeq := by
  obtain ⟨entry, hentry, rfl, message, hmem, rfl⟩ := exists_entry hs
  by_contra hlt
  refine h (mem_map.2 ⟨entry, mem_filter.2 ⟨hentry, ?_⟩, rfl⟩)
  simp only [hid, Option.any_some, any_eq_true, decide_eq_true_eq]
  exact ⟨message, hmem, not_le.1 hlt, hle⟩

end ImClient

end Nexo.Web
