import Nexo.Service.Message

/-!
# The group service

`service/group`: `Create`, `Join`, `Quit` and `Kick`. The group row is read before the transaction
and only its id, owner and status are used afterwards; the member rows are read under the lock of
the group's conversation.
-/

namespace Nexo.Group

open Relational Errcode

structure Info where
  id : String
  name : String
  avatar : String
  introduction : String
  ownerId : String
  status : Int
  extra : String
  memberCount : Int
  createdAt : Int
  updatedAt : Int
  deriving DecidableEq

structure CreateInput where
  name : String
  avatar : String
  introduction : String
  extra : String
  memberIds : List String
  deriving DecidableEq

def maxName : ℕ := 255
def maxAvatar : ℕ := 1024
def maxIntroduction : ℕ := 1024

/-- `toInfo` -/
def toInfo (g : Group) (n : Int) : Info where
  id := g.id
  name := g.name
  avatar := g.avatar
  introduction := g.introduction
  ownerId := g.ownerId
  status := g.status
  extra := g.extra
  memberCount := n
  createdAt := g.createdAt
  updatedAt := g.updatedAt

/-- `lo.Uniq`: each element once, at its first position. -/
def uniq : List String → List String
  | [] => []
  | x :: xs => x :: (uniq xs).filter (· ≠ x)

/-! ### Create -/

/-- The length checks of `Create`. -/
def validateCreate (inp : CreateInput) : Option Err :=
  if inp.name = "" then some (errInvalidParam.withMessage "name is required")
  else if inp.name.utf8ByteSize > maxName then
    some (errInvalidParam.withMessage "name: at most 255 bytes")
  else if inp.avatar.utf8ByteSize > maxAvatar then
    some (errInvalidParam.withMessage "avatar: at most 1024 bytes")
  else if inp.introduction.utf8ByteSize > maxIntroduction then
    some (errInvalidParam.withMessage "introduction: at most 1024 bytes")
  else if (inp.extra.utf8ByteSize : Int) > maxExtraBytes then
    some (errInvalidParam.withMessage "extra: at most 65535 bytes")
  else none

/-- The checks on the member ids of `Create`. -/
def validateMembers (cfg : Config) (ids : List String) : Option Err :=
  if ¬ ids.all (Identity.valid cfg.uuidString) then
    some (errInvalidParam.withMessage "invalid member id")
  else if (ids.length : Int) > cfg.maxMembers then some errGroupFull
  else none

/-- The group row of `Create`. -/
def newGroup (ownerId : String) (inp : CreateInput) (id : String) (now : Time) : Group where
  id := id
  name := inp.name
  avatar := inp.avatar
  introduction := inp.introduction
  ownerId := ownerId
  extra := inp.extra
  createdAt := now
  updatedAt := now

/-- The member rows of `Create`: the owner, and everybody else invited by the owner. -/
def newMembers (ownerId groupId : String) (ids : List String) (now : Time) : List GroupMember :=
  ids.map fun id ↦
    { groupId := groupId, userId := id, role := if id = ownerId then roleOwner else roleMember,
      inviterUserId := if id = ownerId then "" else ownerId, joinedAt := now }

/-- The view rows of `Create`: initial members see the whole history. -/
def newViews (groupId : String) (ids : List String) (now : Time) : List UserConversation :=
  ids.map fun id ↦
    { ownerId := id, conversationId := Conv.group groupId, type := conversationGroup,
      groupId := groupId, minSeq := 1, updatedAt := now }

/-- The callback `Create` hands to `WithTx`. -/
def createTx (g : Group) (ids : List String) (now : Time) : Call (Except Err Unit × Unit) := do
  match ← createGroup g (newMembers g.ownerId g.id ids now) with
  | .error e => return (.error (.store e), ())
  | .ok () =>
    match ← lockConversation (Conv.group g.id) conversationGroup g.id now with
    | .error e => return (.error (.store e), ())
    | .ok _ =>
      match ← update (.createUserConversations (newViews g.id ids now)) with
      | .error e => return (.error (.store e), ())
      | .ok () => return (.ok (), ())

/-- The transaction of `Create` and what follows it. -/
def createCommit (ownerId : String) (inp : CreateInput) (ids : List String) :
    Call (Except Err Info) := do
  let now ← ext .now
  let id ← ext .shortId
  let g := newGroup ownerId inp id now
  match ← withTx () (createTx g ids now) with
  | (.error err, ()) => return .error (errStoreFailed.wrap err)
  | (.ok (), ()) =>
    ext (.groupChanged g.id)
    return .ok (toInfo g ids.length)

/-- `Service.Create` -/
def create (cfg : Config) (ownerId : String) (inp : CreateInput) : Call (Except Err Info) := do
  match validateCreate inp with
  | some err => return .error err
  | none =>
    let ids := uniq (ownerId :: inp.memberIds)
    match validateMembers cfg ids with
    | some err => return .error err
    | none =>
      match ← query (.getUsers ids) with
      | .error e => return .error (errStoreFailed.wrap (.store e))
      | .ok existing =>
        if existing.length ≠ ids.length then return .error errUserNotFound
        else createCommit ownerId inp ids

/-! ### Join -/

/-- `Service.group` -/
def group (groupId : String) : Call (Except Err Group) := do
  match ← query (.getGroup groupId) with
  | .error .notFound => return .error errGroupNotFound
  | .error e => return .error (errStoreFailed.wrap (.store e))
  | .ok g => return .ok g

/-- `Service.activeGroup` -/
def activeGroup (groupId : String) : Call (Except Err Group) := do
  match ← group groupId with
  | .error err => return .error err
  | .ok g =>
    if g.status = groupStatusDismissed then return .error errGroupDismissed else return .ok g

/-- `member` -/
def member (groupId userId : String) : Call (Except Err GroupMember) := do
  match ← query (.getGroupMember groupId userId) with
  | .error .notFound => return .error errNotGroupMember
  | .error e => return .error (errStoreFailed.wrap (.store e))
  | .ok m => return .ok m

/-- `Store.CountGroupMembers` -/
def countGroupMembers (groupId : String) : Call (Except StoreErr Int) :=
  query (.countGroupMembers groupId)

/-- The callback `Join` hands to `WithTx`. -/
def joinTx (cfg : Config) (g : Group) (userId : String) (now : Time) :
    Call (Except Err Unit × Unit) := do
  match ← lockConversation (Conv.group g.id) conversationGroup g.id now with
  | .error e => return (.error (.store e), ())
  | .ok c =>
    match ← query (.getGroupMember g.id userId) with
    | .ok _ => return (.error errAlreadyGroupMember, ())
    | .error .notFound =>
      match ← countGroupMembers g.id with
      | .error e => return (.error (.store e), ())
      | .ok n =>
        if n ≥ cfg.maxMembers then return (.error errGroupFull, ())
        else
          match ← update (.addGroupMember
              { groupId := g.id, userId := userId, role := roleMember, joinedAt := now }) with
          | .error e => return (.error (.store e), ())
          | .ok () =>
            match ← update (.upsertUserConversation
                { ownerId := userId, conversationId := Conv.group g.id, type := conversationGroup,
                  groupId := g.id, minSeq := c.maxSeq + 1, readSeq := c.maxSeq,
                  updatedAt := now }) with
            | .error e => return (.error (.store e), ())
            | .ok () => return (.ok (), ())
    | .error e => return (.error (.store e), ())

/-- `err != nil` after a membership transaction; otherwise the notification. -/
def notifyChanged (groupId : String) : Except Err Unit × Unit → Call (Except Err Unit)
  | (.error err, ()) => return .error (err.or errStoreFailed)
  | (.ok (), ()) => do
    ext (.groupChanged groupId)
    return .ok ()

/-- `Service.Join` -/
def join (cfg : Config) (groupId userId : String) : Call (Except Err Unit) := do
  match ← activeGroup groupId with
  | .error err => return .error err
  | .ok g =>
    match ← query (.getUser userId) with
    | .error .notFound => return .error errUserNotFound
    | .error e => return .error (errStoreFailed.wrap (.store e))
    | .ok _ =>
      let now ← ext .now
      let r ← withTx () (joinTx cfg g userId now)
      notifyChanged g.id r

/-! ### Quit and Kick -/

/-- The checks of a removal by somebody else; the result is the stored spelling of the target. -/
def checkKick (g : Group) (operatorId userId : String) : Call (Except Err String) := do
  match ← member g.id operatorId with
  | .error err => return .error err
  | .ok op =>
    if op.role < roleAdmin then return .error errNotGroupAdmin
    else
      match ← member g.id userId with
      | .error err => return .error err
      | .ok target =>
        if target.userId = g.ownerId then return .error errCannotKickOwner
        else if op.role = roleAdmin ∧ target.role ≥ roleAdmin then return .error errNoPermission
        else return .ok target.userId

/-- Kick rejects self-removal; equal ids identify the Quit path. -/
def removalTarget (g : Group) (operatorId userId : String) : Call (Except Err String) := do
  if operatorId ≠ userId then checkKick g operatorId userId else return .ok userId

/-- Freeze the leaver's view at the current maximum. In a group without a message that would be
`max_seq = 0`, which reads as "no upper bound", so there the row is deleted. -/
def closeView (userId conv : String) (maxSeq : Int) : Call (Except StoreErr Unit) :=
  if maxSeq = 0 then update (.deleteUserConversation userId conv)
  else update (.setUserConversationMaxSeq userId conv maxSeq)

/-- The callback `remove` hands to `WithTx`. -/
def removeTx (g : Group) (operatorId userId : String) (now : Time) :
    Call (Except Err Unit × Unit) := do
  match ← lockConversation (Conv.group g.id) conversationGroup g.id now with
  | .error e => return (.error (.store e), ())
  | .ok c =>
    match ← removalTarget g operatorId userId with
    | .error err => return (.error err, ())
    | .ok userId =>
      match ← update (.removeGroupMember g.id userId) with
      | .error e => return (.error (.store e), ())
      | .ok false => return (.error errNotGroupMember, ())
      | .ok true =>
        match ← closeView userId (Conv.group g.id) c.maxSeq with
        | .error e => return (.error (.store e), ())
        | .ok () => return (.ok (), ())

/-- `Service.remove` -/
def remove (g : Group) (operatorId userId : String) : Call (Except Err Unit) := do
  let now ← ext .now
  let r ← withTx () (removeTx g operatorId userId now)
  notifyChanged g.id r

/-- `Service.Quit` -/
def quit (groupId userId : String) : Call (Except Err Unit) := do
  match ← activeGroup groupId with
  | .error err => return .error err
  | .ok g =>
    if g.ownerId = userId then
      return .error (errInvalidParam.withMessage "owner cannot quit the group")
    else remove g userId userId

/-- `Service.Kick` -/
def kick (cfg : Config) (groupId operatorId targetId : String) : Call (Except Err Unit) := do
  match ← activeGroup groupId with
  | .error err => return .error err
  | .ok g =>
    if ¬ Identity.valid cfg.uuidString targetId then
      return .error (errInvalidParam.withMessage ("invalid user id: " ++ targetId))
    else if targetId = g.ownerId then return .error errCannotKickOwner
    else if operatorId = targetId then
      return .error (errInvalidParam.withMessage "use quit to leave the group")
    else remove g operatorId targetId

end Nexo.Group
