import Nexo.Lib.Table

/-!
# The tables of the store

Rows and tables as the migrations declare them, with the primary keys and unique indexes as index
keys of `Relational.Table`. Sequence numbers, roles, statuses and types are the integers of the
schema; a time is its Unix millisecond, which is what the services store (`store.NowMs`).

`users` keeps the identifier only: no function modelled here reads another column. The tables
`online_conns` and `cache` belong to other components.
-/

namespace Nexo

open Relational

/-- A millisecond-exact wall-clock time. -/
abbrev Time := Int

/-! ### Constants of the store package -/

abbrev maxExtraBytes : Int := 65535

abbrev groupStatusNormal : Int := 0
abbrev groupStatusDismissed : Int := 1

abbrev roleMember : Int := 1
abbrev roleAdmin : Int := 2
abbrev roleOwner : Int := 3

abbrev conversationSingle : Int := 1
abbrev conversationGroup : Int := 2

/-! ### Rows -/

structure User where
  id : String
  deriving DecidableEq

/-- `chat_groups` -/
structure Group where
  id : String
  name : String
  avatar : String
  introduction : String
  ownerId : String
  status : Int := groupStatusNormal
  extra : String
  createdAt : Time
  updatedAt : Time
  deriving DecidableEq

/-- `group_members` -/
structure GroupMember where
  groupId : String
  userId : String
  role : Int
  nickname : String := ""
  inviterUserId : String := ""
  joinedAt : Time
  deriving DecidableEq

/-- The row that carries a conversation's sequence counter; locking it serializes join, quit and
send. -/
structure Conversation where
  conversationId : String
  type : Int
  groupId : String
  maxSeq : Int
  createdAt : Time
  updatedAt : Time
  deriving DecidableEq

/-- One user's view of a conversation. `maxSeq = 0` is no upper bound. -/
structure UserConversation where
  ownerId : String
  conversationId : String
  type : Int
  peerUserId : String := ""
  groupId : String := ""
  minSeq : Int := 0
  maxSeq : Int := 0
  readSeq : Int := 0
  recvMsgOpt : Int := 0
  isPinned : Bool := false
  extra : String := ""
  updatedAt : Time
  createdAt : Time := 0
  deriving DecidableEq

/-- `messages` -/
structure Message where
  conversationId : String
  seq : Int
  serverMsgId : String
  clientMsgId : String
  senderId : String
  recvId : String
  groupId : String
  sessionType : Int
  contentType : Int
  content : String
  sendTime : Time
  createdAt : Time
  deriving DecidableEq

/-- A `user_conversations` row joined with `conversations.max_seq`. -/
structure UserConversationRow extends UserConversation where
  convMaxSeq : Int
  deriving DecidableEq

/-! ### Index keys -/

/-- Primary keys, one for each table: a row is found under its key, and a key has one row. -/
def User.keys (u : User) : List String := [u.id]

def Group.keys (g : Group) : List String := [g.id]

def GroupMember.keys (m : GroupMember) : List (String × String) := [(m.groupId, m.userId)]

def Conversation.keys (c : Conversation) : List String := [c.conversationId]

def UserConversation.keys (u : UserConversation) : List (String × String) :=
  [(u.ownerId, u.conversationId)]

/-- The three unique indexes of `messages`. -/
inductive MessageIndex where
  /-- `PRIMARY KEY (conversation_id, seq)` -/
  | seq (conversationId : String) (seq : Int)
  /-- `uk_messages_server_msg_id` -/
  | server (serverMsgId : String)
  /-- `uk_messages_client_msg_id` -/
  | client (conversationId senderId clientMsgId : String)
  deriving DecidableEq

def Message.keys (m : Message) : List MessageIndex :=
  [.seq m.conversationId m.seq, .server m.serverMsgId,
    .client m.conversationId m.senderId m.clientMsgId]

/-- The committed tables. -/
structure Db where
  users : Table User String User.keys
  groups : Table Group String Group.keys
  members : Table GroupMember (String × String) GroupMember.keys
  conversations : Table Conversation String Conversation.keys
  userConversations : Table UserConversation (String × String) UserConversation.keys
  messages : Table Message MessageIndex Message.keys

/-- The tables right after the migration, with the users registered so far. -/
def Db.empty (users : Table User String User.keys) : Db where
  users := users
  groups := .empty
  members := .empty
  conversations := .empty
  userConversations := .empty
  messages := .empty

/-! ### Lookups by column -/

theorem memberKey_eq_of_mem_keys {m : GroupMember} {g u : String} (h : (g, u) ∈ m.keys) :
    m.groupId = g ∧ m.userId = u := by
  have hkey := Prod.mk.inj (List.mem_singleton.1 h)
  exact ⟨hkey.1.symm, hkey.2.symm⟩

theorem ownerKey_eq_of_mem_keys {uc : UserConversation} {o c : String} (h : (o, c) ∈ uc.keys) :
    uc.ownerId = o ∧ uc.conversationId = c := by
  have hkey := Prod.mk.inj (List.mem_singleton.1 h)
  exact ⟨hkey.1.symm, hkey.2.symm⟩

theorem id_eq_of_get {t : Table User String User.keys} {id : String} {u : User}
    (h : t.get id = some u) : u.id = id := by
  simpa [User.keys, eq_comm] using Table.mem_keys_of_get h

theorem groupId_eq_of_get {t : Table Group String Group.keys} {id : String} {g : Group}
    (h : t.get id = some g) : g.id = id := by
  simpa [Group.keys, eq_comm] using Table.mem_keys_of_get h

theorem memberKey_eq_of_get {t : Table GroupMember (String × String) GroupMember.keys}
    {g u : String} {m : GroupMember} (h : t.get (g, u) = some m) :
    m.groupId = g ∧ m.userId = u :=
  memberKey_eq_of_mem_keys (Table.mem_keys_of_get h)

theorem conversationId_eq_of_get {t : Table Conversation String Conversation.keys} {id : String}
    {c : Conversation} (h : t.get id = some c) : c.conversationId = id := by
  simpa [Conversation.keys, eq_comm] using Table.mem_keys_of_get h

theorem ownerKey_eq_of_get {t : Table UserConversation (String × String) UserConversation.keys}
    {o c : String} {u : UserConversation} (h : t.get (o, c) = some u) :
    u.ownerId = o ∧ u.conversationId = c :=
  ownerKey_eq_of_mem_keys (Table.mem_keys_of_get h)

theorem seqKey_eq_of_get {t : Table Message MessageIndex Message.keys} {c : String} {s : Int}
    {m : Message} (h : t.get (.seq c s) = some m) : m.conversationId = c ∧ m.seq = s := by
  simpa [Message.keys, eq_comm] using Table.mem_keys_of_get h

theorem serverKey_eq_of_get {t : Table Message MessageIndex Message.keys} {i : String}
    {m : Message} (h : t.get (.server i) = some m) : m.serverMsgId = i := by
  simpa [Message.keys, eq_comm] using Table.mem_keys_of_get h

end Nexo
