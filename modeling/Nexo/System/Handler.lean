import Nexo.Ledger.Preservation
import Nexo.Store.Isolation

/-!
# The system

Any number of nodes run the service calls against one store. A `Request` is a call with its
arguments, `handle` the program that serves it, and `system` the concurrent system of
`Nexo.Lib.Txn`: every interleaving of every finite set of requests, with a failure possible at every
statement, every `begin` and every `commit`, over tables that start empty but for some users.
-/

namespace Nexo

open Relational

/-- The calls of the services. -/
inductive Request where
  | send (inp : Message.SendInput)
  | create (ownerId : String) (inp : Group.CreateInput)
  | join (groupId userId : String)
  | quit (groupId userId : String)
  | kick (groupId operatorId targetId : String)
  | markRead (userId readerConnId conversationId : String) (readSeq : Int)
  | setOpt (userId conversationId : String) (recvMsgOpt : Option Int) (isPinned : Option Bool)
  | pull (inp : Message.PullInput) (pageMax : Int)
  deriving DecidableEq

/-- What a call returns. -/
inductive Response where
  | ack (r : Except Err Message.Ack)
  | info (r : Except Err Group.Info)
  | done (r : Except Err Unit)
  | read (r : Except Err Int)
  | page (r : Except Err Message.PullResult)

/-- The program of a call. -/
def handle (cfg : Config) : Request → Call Response
  | .send inp => do return .ack (← Message.send cfg inp)
  | .create ownerId inp => do return .info (← Group.create cfg ownerId inp)
  | .join g u => do return .done (← Group.join cfg g u)
  | .quit g u => do return .done (← Group.quit g u)
  | .kick g op u => do return .done (← Group.kick cfg g op u)
  | .markRead u conn c n => do return .read (← Conversation.markRead u conn c n)
  | .setOpt u c opt pinned => do return .done (← Conversation.setOpt u c opt pinned)
  | .pull inp pageMax => do return .page (← Message.pull inp pageMax)

/-- The system, from tables that hold nothing but users. -/
abbrev system (cfg : Config) (users : Table User String User.keys) : System sig where
  Call := Request
  Val := Response
  prog := handle cfg
  env := Env
  init := Db.empty users

/-- A history of the system. -/
abbrev History (cfg : Config) (users : Table User String User.keys) := Trace (system cfg users)

end Nexo
