import Nexo.Errcode
import Nexo.Lib.Txn

/-!
# What the services call

The signature of the services' programs: the statements of the store, and the world outside it —
the wall clock, the random sources, the send limiter, and the receivers of the events that follow a
commit. Of the outside nothing is assumed: a clock may return any time, the limiter may answer
anything, and ids are fresh only where a theorem says so.

An event handed to a publisher or a notifier is recorded when it is handed over; those calls return
nothing and cannot fail.
-/

namespace Nexo

open Relational

/-- `dto.Message`, the shape in which a message leaves the server. -/
structure Dto.Message where
  serverMsgId : String
  clientMsgId : String
  conversationId : String
  seq : Int
  sessionType : Int
  senderId : String
  recvId : String
  groupId : String
  contentType : Int
  content : String
  sendTime : Int
  deriving DecidableEq

/-- `dto.MessageFromStore` -/
def Dto.messageFromStore (m : Nexo.Message) : Dto.Message where
  serverMsgId := m.serverMsgId
  clientMsgId := m.clientMsgId
  conversationId := m.conversationId
  seq := m.seq
  sessionType := m.sessionType
  senderId := m.senderId
  recvId := m.recvId
  groupId := m.groupId
  contentType := m.contentType
  content := m.content
  sendTime := m.sendTime

/-- `message.PushEvent` -/
structure PushEvent where
  conversationId : String
  sessionType : Int
  senderId : String
  senderConnId : String
  recvId : String
  groupId : String
  message : Dto.Message
  deriving DecidableEq

/-- `conversation.ReadEvent` -/
structure ReadEvent where
  userId : String
  readerConnId : String
  conversationId : String
  readSeq : Int
  deriving DecidableEq

/-- Calls to the outside. -/
inductive Ext where
  /-- `store.NowMs` -/
  | now
  /-- `uuid.NewV7().String()` -/
  | newUuid
  /-- `group.shortId` -/
  | shortId
  /-- `sendLimit.Allow` -/
  | allow (senderId : String) (now : Time)
  /-- `Publisher.Publish` -/
  | publish (ev : PushEvent)
  /-- `Service.spawnOfflinePush`, whose background work is not part of the call. -/
  | spawnOfflinePush (ev : PushEvent)
  /-- `group.Notifier.GroupChanged` -/
  | groupChanged (groupId : String)
  /-- `conversation.Notifier.ConversationRead` -/
  | conversationRead (ev : ReadEvent)

def Ext.Res : Ext → Type
  | .now => Time
  | .newUuid => String
  | .shortId => String
  | .allow _ _ => Bool
  | _ => Unit

/-- The signature of the services' programs. -/
abbrev sig : Signature where
  Db := Db
  Stmt := Stmt
  Res s := Except StoreErr s.Val
  exec := Stmt.exec
  failed _ := .error .failed
  Key := Key
  locks := Stmt.locks
  Ext := Ext
  ExtRes := Ext.Res

/-- What a service method is: a program that returns an `α`. -/
abbrev Call (α : Type) := Program sig α

/-! ### Operations -/

def query (q : Query) : Call (Except StoreErr q.Val) := Prog.op (Op.stmt (S := sig) (.query q))

def update (u : Update) : Call (Except StoreErr u.Val) := Prog.op (Op.stmt (S := sig) (.update u))

def ext (e : Ext) : Call e.Res := Prog.op (Op.ext (S := sig) e)

def begin_ : Call Bool := Prog.op (Op.begin (S := sig))

def commit : Call Bool := Prog.op (Op.commit (S := sig))

def rollback : Call Unit := Prog.op (Op.rollback (S := sig))

/-- `Store.WithTx`. The callback's error and the variables `σ` it captures are its result; `init` is
their value when the transaction could not be opened. -/
def withTx {σ : Type} (init : σ) (fn : Call (Except Err Unit × σ)) : Call (Except Err Unit × σ) := do
  if ← begin_ then
    match ← fn with
    | (.error err, vars) => do
      rollback
      return (.error err, vars)
    | (.ok (), vars) => do
      if ← commit then return (.ok (), vars) else return (.error (.store .failed), vars)
  else
    return (.error (.store .failed), init)

/-! ### Store methods of two statements -/

/-- `Store.LockConversation` -/
def lockConversation (id : String) (typ : Int) (groupId : String) (now : Time) :
    Call (Except StoreErr Conversation) := do
  match ← update (.insertConversationIfMissing id typ groupId now) with
  | .error e => return .error e
  | .ok () => query (.lockConversation id)

/-- `Store.CreateGroup` -/
def createGroup (g : Group) (members : List GroupMember) : Call (Except StoreErr Unit) := do
  match ← update (.createGroup g) with
  | .error e => return .error e
  | .ok () => update (.addGroupMembers members)

end Nexo
