import Nexo.Service.Conversation

/-!
# The ledger: what a committed action does to the tables

The abstract machine the services implement. Its state is the committed tables, its steps are
**whole actions**: a message is sent, a group is created, a user joins or leaves, a read cursor
advances, a preference is set. There are no statements, no transactions and no interleaving here;
`Nexo.System` shows that every history of the services is a run of this machine.

An action is only possible when its guard holds *in the state it changes*, however long ago the
service checked it: a sender is a member at the commit of the message, a join finds the group below
its limit, a read cursor never passes what its owner may see.
-/

namespace Nexo

open Relational Message

/-! ### Observations -/

namespace Db

/-- `conversations.max_seq`, zero while there is no row. -/
def maxSeq (d : Db) (c : String) : Int := ((d.conversations.get c).map (·.maxSeq)).getD 0

/-- The view row of a user in a conversation. -/
def view (d : Db) (o c : String) : Option UserConversation := d.userConversations.get (o, c)

/-- Is the user a member of the group? -/
def isMember (d : Db) (g u : String) : Bool := (d.members.get (g, u)).isSome

/-- The last sequence number a user may see, zero without a view row. -/
def visibleMax (d : Db) (o c : String) : Int :=
  ((d.view o c).map fun uc ↦ Conv.visibleMax uc (d.maxSeq c)).getD 0

/-- The row `LockConversation` returns: the stored one, or the one it has just inserted. -/
def lockedRow (d : Db) (conv : String) (typ : Int) (groupId : String) (now : Time) :
    Conversation :=
  (d.conversations.get conv).getD
    { conversationId := conv, type := typ, groupId := groupId, maxSeq := 0, createdAt := now,
      updatedAt := now }

end Db

/-! ### Destinations -/

namespace Message.SendInput

/-- The conversation a send goes to. -/
def conversation (inp : SendInput) : String :=
  if inp.sessionType = conversationSingle then Conv.single inp.senderId inp.recvId
  else Conv.group inp.groupId

/-- The input with the other session type's field cleared. -/
def normalize (inp : SendInput) : SendInput :=
  if inp.sessionType = conversationSingle then { inp with groupId := "" }
  else { inp with recvId := "" }

/-- The sequence number the sender's cursor moves to, zero for none. -/
def readTarget (inp : SendInput) (seq : Int) : Int := if inp.senderRead then seq else 0

/-- A send may reach its conversation: two different users, or a member of the group. -/
def Admitted (d : Db) (inp : SendInput) : Prop :=
  (inp.sessionType = conversationSingle ∧ inp.recvId ≠ inp.senderId ∧ ':' ∉ inp.recvId.toList) ∨
    (inp.sessionType = conversationGroup ∧ (d.groups.get inp.groupId).isSome ∧
      d.isMember inp.groupId inp.senderId)

/-- The view row that a single send touches for one of the two users. -/
def party (inp : SendInput) (owner peer : String) (now : Time) : UserConversation :=
  { ownerId := owner, conversationId := inp.conversation, type := inp.sessionType,
    peerUserId := peer, updatedAt := now }

end Message.SendInput

/-! ### Effects -/

namespace Db

/-- What `touchConversations` does. -/
def touchSend (d : Db) (inp : SendInput) (m : Message) : Db :=
  if inp.sessionType = conversationSingle then
    (d.touchUserConversation (inp.party inp.senderId inp.recvId m.sendTime)
      (inp.readTarget m.seq)).touchUserConversation
      (inp.party inp.recvId inp.senderId m.sendTime) 0
  else if inp.readTarget m.seq = 0 then d.touchConversationMembers inp.conversation m.sendTime
  else (d.touchConversationMembers inp.conversation m.sendTime).advanceReadSeq inp.senderId
    inp.conversation (inp.readTarget m.seq)

/-- A committed send. -/
def afterSend (d : Db) (inp : SendInput) (m : Message) (now : Time) : Db :=
  (((d.insertConversationIfMissing inp.conversation inp.sessionType inp.groupId now).insertMessage
    m).setConversationMaxSeq inp.conversation m.seq m.sendTime).touchSend inp m

/-- A committed creation, given the two tables the bulk copies yield. -/
def afterCreate (d : Db) (g : Group) (now : Time)
    (members : Table GroupMember (String × String) GroupMember.keys)
    (views : Table UserConversation (String × String) UserConversation.keys) : Db :=
  { ({ d.createGroup g with members := members } : Db).insertConversationIfMissing
      (Conv.group g.id) conversationGroup g.id now with
    userConversations := views }

/-- A committed join. -/
def afterJoin (d : Db) (g u : String) (now : Time) : Db :=
  let c := d.lockedRow (Conv.group g) conversationGroup g now
  ((d.insertConversationIfMissing (Conv.group g) conversationGroup g now).addGroupMember
    { groupId := g, userId := u, role := roleMember, joinedAt := now }).upsertUserConversation
    { ownerId := u, conversationId := Conv.group g, type := conversationGroup, groupId := g,
      minSeq := c.maxSeq + 1, readSeq := c.maxSeq, updatedAt := now }

/-- Freeze the leaver's view, or drop it while there is no message. -/
def closeView (d : Db) (u c : String) (maxSeq : Int) : Db :=
  if maxSeq = 0 then d.deleteUserConversation u c else d.setUserConversationMaxSeq u c maxSeq

/-- A committed removal. -/
def afterLeave (d : Db) (g u : String) (now : Time) : Db :=
  ((d.insertConversationIfMissing (Conv.group g) conversationGroup g now).removeGroupMember g
    u).closeView u (Conv.group g) (d.lockedRow (Conv.group g) conversationGroup g now).maxSeq

/-- A role is changed from outside. -/
def setRole (d : Db) (g u : String) (role : Int) : Db :=
  { d with
    members := d.members.update (fun m ↦ m.groupId = g && m.userId = u)
      (fun m ↦ { m with role := role }) fun _ ↦ rfl }

/-- A group's status is changed from outside. -/
def setStatus (d : Db) (g : String) (status : Int) : Db :=
  { d with
    groups := d.groups.update (fun r ↦ r.id = g) (fun r ↦ { r with status := status }) fun _ ↦ rfl }

end Db

/-! ### The machine -/

/-- **What happens outside the services**: users are registered and edited, never removed; an
operator changes the role of a member who is not the owner, or the status of a group. -/
inductive Env : Db → Db → Prop where
  | users {d : Db} (t : Table User String User.keys)
      (h : ∀ id, (d.users.get id).isSome → (t.get id).isSome) : Env d { d with users := t }
  | role {d : Db} {g u : String} {m : GroupMember} {role : Int} (hm : d.members.get (g, u) = some m)
      (hold : m.role ≠ roleOwner) (hnew : role = roleMember ∨ role = roleAdmin) :
      Env d (d.setRole g u role)
  | status {d : Db} (g : String) (status : Int) : Env d (d.setStatus g status)

/-- The actions. -/
inductive Action where
  /-- a normalized input, and the message stored for it -/
  | send (inp : SendInput) (m : Message)
  | create (g : Group) (ids : List String)
  | join (g u : String)
  | leave (g u : String)
  | read (o c : String) (n : Int)
  | setOpt (o c : String)
  | outside

/-- **One action**: its guard, and the tables it leads to. -/
inductive Change (cfg : Config) : Db → Action → Db → Prop where
  | send {d : Db} {inp : SendInput} {id : String} {now : Time} {m : Message}
      (hadm : inp.Admitted d)
      (hm : m = place (newMessage inp inp.conversation id)
        (d.lockedRow inp.conversation inp.sessionType inp.groupId now) now)
      (hfree : d.messages.Free m) : Change cfg d (.send inp m) (d.afterSend inp m now)
  | create {d : Db} {g : Group} {ids : List String} {now : Time}
      {members : Table GroupMember (String × String) GroupMember.keys}
      {views : Table UserConversation (String × String) UserConversation.keys}
      (hg : d.groups.get g.id = none) (hids : ids.Nodup) (howner : g.ownerId ∈ ids)
      (hlen : (ids.length : Int) ≤ cfg.maxMembers)
      (hmembers : d.members.insertAll? (Group.newMembers g.ownerId g.id ids now) = some members)
      (hviews : d.userConversations.insertAll?
        ((Group.newViews g.id ids now).map fun uc ↦ { uc with createdAt := uc.updatedAt }) =
          some views) :
      Change cfg d (.create g ids) (d.afterCreate g now members views)
  | join {d : Db} {g u : String} {now : Time} (hg : (d.groups.get g).isSome)
      (hm : d.members.get (g, u) = none) (hlen : (d.countGroupMembers g : Int) < cfg.maxMembers) :
      Change cfg d (.join g u) (d.afterJoin g u now)
  | leave {d : Db} {g u : String} {now : Time} {row : Group} (hg : d.groups.get g = some row)
      (howner : u ≠ row.ownerId) (hm : d.isMember g u) :
      Change cfg d (.leave g u) (d.afterLeave g u now)
  | read {d : Db} {o c : String} {n : Int} (hn : n ≤ d.visibleMax o c) :
      Change cfg d (.read o c n) (d.advanceReadSeq o c n)
  | setOpt {d : Db} {o c : String} (opt : Option Int) (pinned : Option Bool) :
      Change cfg d (.setOpt o c) (d.setUserConversationOpt o c opt pinned)
  | outside {d d' : Db} (h : Env d d') : Change cfg d .outside d'

end Nexo
