import Nexo.Service.Conv
import Mathlib.Data.List.Sort

/-!
# The statements of the store

One constructor for each SQL statement the services run, with its result and its effect on the
tables, read off `pgstore/queries`. A **query** has no effect; an **update** returns what
`RowsAffected` tells the caller. Duplicate keys and missing rows are results; every other failure
is the single error `failed`, which any statement may return without having had an effect.

The services' own store methods are not always one statement: `CreateGroup` and `LockConversation`
are two each. Those are programs over these statements, so that a failure between the two can be
observed (`lockConversation`, `createGroup`).

## Main definitions

* `Query.exec` and `Update.exec`: what a statement returns on given tables, and the tables it leaves.
* `Stmt.locks`: the keys that it holds until the end of its transaction.

## Main results

The effects are used through one lemma for each (`Db.get_...`), which says what a lookup finds
afterwards: under the key that was written the new row, and under every other key the row that was
there before. No later module unfolds an update.
-/

namespace Nexo

open Relational List Option Table

/-- What a statement reports when it does not succeed. -/
inductive StoreErr where
  /-- `store.ErrNotFound` -/
  | notFound
  /-- `store.ErrDuplicate` -/
  | duplicate
  /-- Anything else: a lost connection, a cancelled context, a deadlock. -/
  | failed
  deriving DecidableEq

/-! ### Queries -/

/-- Statements without effect. `lockConversation` is `SELECT ... FOR UPDATE`. -/
inductive Query where
  | getUser (id : String)
  | getUsers (ids : List String)
  | getGroup (id : String)
  | getGroupMember (groupId userId : String)
  | countGroupMembers (groupId : String)
  | lockConversation (id : String)
  | getUserConversationRow (ownerId conversationId : String)
  | visibleOwners (conversationId : String) (ownerIds : List String) (seq : Int)
  | getMessageByClientId (conversationId senderId clientMsgId : String)
  | listMessages (conversationId : String) (beginSeq endSeq rowLimit : Int)

/-- The rows a query yields. -/
def Query.Val : Query → Type
  | .getUser _ => User
  | .getUsers _ => List User
  | .getGroup _ => Group
  | .getGroupMember _ _ => GroupMember
  | .countGroupMembers _ => Int
  | .lockConversation _ => Conversation
  | .getUserConversationRow _ _ => UserConversationRow
  | .visibleOwners _ _ _ => List String
  | .getMessageByClientId _ _ _ => Message
  | .listMessages _ _ _ _ => List Message

/-- A `:one` query reports a missing row as `ErrNotFound`. -/
def one {α : Type} : Option α → Except StoreErr α
  | some a => .ok a
  | none => .error .notFound

@[simp] theorem one_some {α : Type} (a : α) : one (some a) = .ok a := rfl

@[simp] theorem one_none {α : Type} : one (none : Option α) = .error .notFound := rfl

/-- A `:one` query succeeds with the row that is there. -/
theorem one_eq_ok {α : Type} {o : Option α} {a : α} : one o = .ok a ↔ o = some a := by
  cases o <;> simp

namespace Db

/-- `GetUserConversationRow`: the inner join with the conversation's counter. -/
def userConversationRow (d : Db) (o c : String) : Option UserConversationRow :=
  (d.userConversations.get (o, c)).bind fun uc ↦
    (d.conversations.get c).map fun cv ↦ { uc with convMaxSeq := cv.maxSeq }

/-- `CountGroupMembers` -/
def countGroupMembers (d : Db) (g : String) : ℕ := d.members.count fun m ↦ m.groupId = g

/-- The `WHERE` clause of `VisibleOwners` beyond the keys: the row's range covers `seq`. -/
def covers (uc : UserConversation) (seq : Int) : Bool :=
  uc.minSeq ≤ seq && (uc.maxSeq = 0 || seq ≤ uc.maxSeq)

/-- `VisibleOwners` -/
def visibleOwners (d : Db) (c : String) (owners : List String) (seq : Int) : List String :=
  (d.userConversations.rows.filter fun uc ↦
    uc.conversationId = c && uc.ownerId ∈ owners && covers uc seq).map (·.ownerId)

variable {owners : List String}

/-- The owners that a query on their rows in one conversation returns. -/
theorem mem_owners {d : Db} {c u : String} {P : UserConversation → Bool} :
    u ∈ (d.userConversations.rows.filter fun uc ↦
        uc.conversationId = c && uc.ownerId ∈ owners && P uc).map (·.ownerId) ↔
      u ∈ owners ∧ ∃ uc, d.userConversations.get (u, c) = some uc ∧ P uc := by
  simp only [List.mem_map, mem_filter, Bool.and_eq_true, decide_eq_true_eq, get_eq_some_iff,
    UserConversation.keys, mem_singleton, Prod.mk.injEq]
  constructor
  · rintro ⟨uc, ⟨hmem, ⟨hc, ho⟩, hP⟩, rfl⟩
    exact ⟨ho, uc, ⟨hmem, rfl, hc.symm⟩, hP⟩
  · rintro ⟨ho, uc, ⟨hmem, rfl, rfl⟩, hP⟩
    exact ⟨uc, ⟨hmem, ⟨rfl, ho⟩, hP⟩, rfl⟩

/-- `VisibleOwners` returns those of the users asked for whose row covers the number. -/
theorem mem_visibleOwners {d : Db} {c u : String} {seq : Int} :
    u ∈ d.visibleOwners c owners seq ↔
      u ∈ owners ∧ ∃ uc, d.userConversations.get (u, c) = some uc ∧ covers uc seq :=
  mem_owners

/-- An owner has one row in a conversation. -/
theorem nodup_visibleOwners (d : Db) (c : String) (owners : List String) (seq : Int) :
    (d.visibleOwners c owners seq).Nodup := by
  have hrows := d.userConversations.nodup_rows fun uc ↦ cons_ne_nil _ _
  refine List.Nodup.map_on (fun uc huc uc' huc' howner ↦ ?_) (hrows.filter _)
  obtain ⟨hmem, hcov⟩ := mem_filter.1 huc
  obtain ⟨hmem', hcov'⟩ := mem_filter.1 huc'
  simp only [Bool.and_eq_true, decide_eq_true_eq] at hcov hcov'
  have hkey : UserConversation.keys uc = UserConversation.keys uc' := by
    rw [UserConversation.keys, UserConversation.keys, howner, hcov.1.1, hcov'.1.1]
  exact eq_of_mem_keys hmem hmem' (hkey ▸ mem_singleton_self _) (mem_singleton_self _)

/-- `MutedOwners` -/
def mutedOwners (d : Db) (c : String) (owners : List String) : List String :=
  (d.userConversations.rows.filter fun uc ↦
    uc.conversationId = c && uc.ownerId ∈ owners && uc.recvMsgOpt ≠ 0).map (·.ownerId)

/-- `MutedOwners` returns those of the users asked for who do not want to be notified. -/
theorem mem_mutedOwners {d : Db} {c u : String} :
    u ∈ d.mutedOwners c owners ↔
      u ∈ owners ∧ ∃ uc, d.userConversations.get (u, c) = some uc ∧ uc.recvMsgOpt ≠ 0 :=
  mem_owners.trans (by simp only [decide_eq_true_eq])

/-- The messages of a conversation with a sequence number in a range, `ORDER BY seq`. -/
def messagesIn (d : Db) (c : String) (b e : Int) : List Message :=
  (d.messages.rows.filter fun m ↦ m.conversationId = c && b ≤ m.seq && m.seq ≤ e).insertionSort
    fun m m' ↦ m.seq ≤ m'.seq

end Db

/-- The answer to a query. A negative `LIMIT` is an error of the database. -/
def Query.exec (d : Db) : (q : Query) → Except StoreErr q.Val
  | .getUser id => one (d.users.get id)
  | .getUsers ids => .ok (d.users.rows.filter fun u ↦ u.id ∈ ids)
  | .getGroup id => one (d.groups.get id)
  | .getGroupMember g u => one (d.members.get (g, u))
  | .countGroupMembers g => .ok (d.countGroupMembers g : Int)
  | .lockConversation id => one (d.conversations.get id)
  | .getUserConversationRow o c => one (d.userConversationRow o c)
  | .visibleOwners c os s => .ok (d.visibleOwners c os s)
  | .getMessageByClientId c s k => one (d.messages.get (.client c s k))
  | .listMessages c b e n =>
    if n < 0 then .error .failed else .ok ((d.messagesIn c b e).take n.toNat)

/-! ### Updates -/

/-- Statements with an effect. -/
inductive Update where
  | createGroup (g : Group)
  | addGroupMembers (ms : List GroupMember)
  | addGroupMember (m : GroupMember)
  | removeGroupMember (groupId userId : String)
  | insertConversationIfMissing (id : String) (typ : Int) (groupId : String) (now : Time)
  | upsertUserConversation (uc : UserConversation)
  | createUserConversations (ucs : List UserConversation)
  | setUserConversationMaxSeq (ownerId conversationId : String) (maxSeq : Int)
  | deleteUserConversation (ownerId conversationId : String)
  | setUserConversationOpt (ownerId conversationId : String) (recvMsgOpt : Option Int)
      (isPinned : Option Bool)
  | insertMessage (m : Message)
  | setConversationMaxSeq (conversationId : String) (maxSeq : Int) (now : Time)
  | touchUserConversation (uc : UserConversation) (readSeq : Int)
  | touchConversationMembers (conversationId : String) (now : Time)
  | advanceReadSeq (ownerId conversationId : String) (readSeq : Int)

/-- What an update reports: whether a row was affected, where the caller asks. -/
def Update.Val : Update → Type
  | .removeGroupMember _ _ => Bool
  | .insertMessage _ => Bool
  | _ => Unit

namespace Db

/-- `CreateGroup`, where no row has the id. -/
def createGroup (d : Db) (g : Group) : Db := { d with groups := d.groups.insert g }

/-- `AddGroupMember`, where no row has the group and the user. -/
def addGroupMember (d : Db) (m : GroupMember) : Db := { d with members := d.members.insert m }

/-- `RemoveGroupMember`: a `DELETE`, of no row if there is none. -/
def removeGroupMember (d : Db) (g u : String) : Db :=
  { d with members := d.members.delete fun m ↦ m.groupId = g && m.userId = u }

/-- `InsertConversationIfMissing`: `ON CONFLICT DO NOTHING`, so that an existing row keeps its
counter. -/
def insertConversationIfMissing (d : Db) (id : String) (typ : Int) (groupId : String)
    (now : Time) : Db :=
  { d with
    conversations := d.conversations.insert
      { conversationId := id, type := typ, groupId := groupId, maxSeq := 0, createdAt := now,
        updatedAt := now } }

/-- `DO UPDATE` for the row of one owner, then the insertion, which gives way to that row. -/
def upsert (d : Db) (f : UserConversation → UserConversation)
    (hf : ∀ uc, (f uc).keys = uc.keys) (new : UserConversation) : Db :=
  { d with
    userConversations := (d.userConversations.update
      (fun uc ↦ uc.ownerId = new.ownerId && uc.conversationId = new.conversationId) f hf).insert
      new }

/-- `UpsertUserConversation`. On conflict the range, the read cursor and the time are set;
preferences and the time of creation stay. -/
def upsertUserConversation (d : Db) (uc : UserConversation) : Db :=
  d.upsert
    (fun r ↦ { r with minSeq := uc.minSeq, maxSeq := uc.maxSeq, readSeq := uc.readSeq,
                      updatedAt := uc.updatedAt })
    (fun _ ↦ rfl) { uc with createdAt := uc.updatedAt }

/-- The row `TouchUserConversation` inserts when there is none. -/
def touched (uc : UserConversation) (readSeq : Int) : UserConversation where
  ownerId := uc.ownerId
  conversationId := uc.conversationId
  type := uc.type
  peerUserId := uc.peerUserId
  groupId := uc.groupId
  minSeq := 1
  maxSeq := 0
  readSeq := readSeq
  recvMsgOpt := 0
  isPinned := false
  extra := ""
  updatedAt := uc.updatedAt
  createdAt := uc.updatedAt

/-- `TouchUserConversation`. On conflict the time and the read cursor only go up (`GREATEST`). -/
def touchUserConversation (d : Db) (uc : UserConversation) (readSeq : Int) : Db :=
  d.upsert
    (fun r ↦ { r with updatedAt := max r.updatedAt uc.updatedAt, readSeq := max r.readSeq readSeq })
    (fun _ ↦ rfl) (touched uc readSeq)

/-- Update the row of one owner in one conversation. -/
def updateUserConversation (d : Db) (o c : String) (f : UserConversation → UserConversation)
    (hf : ∀ uc, (f uc).keys = uc.keys) : Db :=
  { d with userConversations :=
      d.userConversations.update (fun uc ↦ uc.ownerId = o && uc.conversationId = c) f hf }

/-- `SetUserConversationMaxSeq` -/
def setUserConversationMaxSeq (d : Db) (o c : String) (maxSeq : Int) : Db :=
  d.updateUserConversation o c (fun uc ↦ { uc with maxSeq := maxSeq }) fun _ ↦ rfl

/-- `SetUserConversationOpt`: a value that is not given is kept (`COALESCE`). -/
def setUserConversationOpt (d : Db) (o c : String) (opt : Option Int) (pinned : Option Bool) :
    Db :=
  d.updateUserConversation o c
    (fun uc ↦ { uc with recvMsgOpt := opt.getD uc.recvMsgOpt,
                        isPinned := pinned.getD uc.isPinned })
    fun _ ↦ rfl

/-- `AdvanceReadSeq`: the cursor never goes back (`GREATEST`). -/
def advanceReadSeq (d : Db) (o c : String) (readSeq : Int) : Db :=
  d.updateUserConversation o c (fun uc ↦ { uc with readSeq := max uc.readSeq readSeq }) fun _ ↦ rfl

/-- `DeleteUserConversation` -/
def deleteUserConversation (d : Db) (o c : String) : Db :=
  { d with userConversations :=
      d.userConversations.delete fun uc ↦ uc.ownerId = o && uc.conversationId = c }

/-- `InsertMessage`: `ON CONFLICT DO NOTHING`, on whichever of the three indexes the conflict is. -/
def insertMessage (d : Db) (m : Message) : Db := { d with messages := d.messages.insert m }

/-- `SetConversationMaxSeq` -/
def setConversationMaxSeq (d : Db) (c : String) (maxSeq : Int) (now : Time) : Db :=
  { d with
    conversations := d.conversations.update (fun r ↦ r.conversationId = c)
      (fun r ↦ { r with maxSeq := maxSeq, updatedAt := now }) fun _ ↦ rfl }

/-- `TouchConversationMembers`: the rows without an upper bound, which are those of the active
members. -/
def touchConversationMembers (d : Db) (c : String) (now : Time) : Db :=
  { d with
    userConversations := d.userConversations.update
      (fun uc ↦ uc.conversationId = c && uc.maxSeq = 0)
      (fun uc ↦ { uc with updatedAt := max uc.updatedAt now }) fun _ ↦ rfl }

end Db

/-- The result and the effect of an update. -/
def Update.exec (d : Db) : (u : Update) → Except StoreErr u.Val × Db
  | .createGroup g =>
    if d.groups.Free g then (.ok (), d.createGroup g) else (.error .duplicate, d)
  | .addGroupMembers ms =>
    match d.members.insertAll? ms with
    | some t => (.ok (), { d with members := t })
    | none => (.error .duplicate, d)
  | .addGroupMember m =>
    if d.members.Free m then (.ok (), d.addGroupMember m) else (.error .duplicate, d)
  | .removeGroupMember g u =>
    (.ok (d.members.get (g, u)).isSome, d.removeGroupMember g u)
  | .insertConversationIfMissing id typ g now => (.ok (), d.insertConversationIfMissing id typ g now)
  | .upsertUserConversation uc => (.ok (), d.upsertUserConversation uc)
  | .createUserConversations ucs =>
    match d.userConversations.insertAll? (ucs.map fun uc ↦ { uc with createdAt := uc.updatedAt }) with
    | some t => (.ok (), { d with userConversations := t })
    | none => (.error .duplicate, d)
  | .setUserConversationMaxSeq o c n => (.ok (), d.setUserConversationMaxSeq o c n)
  | .deleteUserConversation o c => (.ok (), d.deleteUserConversation o c)
  | .setUserConversationOpt o c opt pinned =>
    (if (d.userConversations.get (o, c)).isSome then .ok () else .error .notFound,
      d.setUserConversationOpt o c opt pinned)
  | .insertMessage m => (.ok (decide (d.messages.Free m)), d.insertMessage m)
  | .setConversationMaxSeq c n now => (.ok (), d.setConversationMaxSeq c n now)
  | .touchUserConversation uc n => (.ok (), d.touchUserConversation uc n)
  | .touchConversationMembers c now => (.ok (), d.touchConversationMembers c now)
  | .advanceReadSeq o c n => (.ok (), d.advanceReadSeq o c n)

section Bulk

variable {d : Db}

theorem Update.exec_addGroupMembers {ms : List GroupMember} {t : Table GroupMember _ _}
    (h : d.members.insertAll? ms = some t) :
    Update.exec d (.addGroupMembers ms) = (.ok (), { d with members := t }) := by
  simp only [Update.exec, h]

theorem Update.exec_addGroupMembers_none {ms : List GroupMember}
    (h : d.members.insertAll? ms = none) :
    Update.exec d (.addGroupMembers ms) = (.error .duplicate, d) := by
  simp only [Update.exec, h]

theorem Update.exec_createUserConversations {ucs : List UserConversation}
    {t : Table UserConversation _ _} (h : d.userConversations.insertAll?
      (ucs.map fun uc ↦ { uc with createdAt := uc.updatedAt }) = some t) :
    Update.exec d (.createUserConversations ucs) = (.ok (), { d with userConversations := t }) := by
  simp only [Update.exec, h]

theorem Update.exec_createUserConversations_none {ucs : List UserConversation}
    (h : d.userConversations.insertAll?
      (ucs.map fun uc ↦ { uc with createdAt := uc.updatedAt }) = none) :
    Update.exec d (.createUserConversations ucs) = (.error .duplicate, d) := by
  simp only [Update.exec, h]

end Bulk

/-! ### Statements, their locks, and the outside -/

/-- A statement. -/
inductive Stmt where
  | query (q : Query)
  | update (u : Update)

def Stmt.Val : Stmt → Type
  | .query q => q.Val
  | .update u => u.Val

/-- A query leaves the tables as they are. -/
def Stmt.exec : (s : Stmt) → Db → Except StoreErr s.Val × Db
  | .query q, d => (q.exec d, d)
  | .update u, d => u.exec d

/-- Lockable keys: the conversation row, and the unique index entries that two transactions may
want to create at once. -/
inductive Key where
  | conv (id : String)
  | group (id : String)
  | member (groupId userId : String)
  | server (serverMsgId : String)
  deriving DecidableEq

/-- `FOR UPDATE` locks the conversation row. An insertion holds its index entry until the
transaction ends, and a deletion its row; an index entry below a locked conversation needs no key of
its own. -/
def Stmt.locks : Stmt → List Key
  | .query (.lockConversation id) => [.conv id]
  | .update (.createGroup g) => [.group g.id]
  | .update (.addGroupMembers ms) => ms.map fun m ↦ .member m.groupId m.userId
  | .update (.addGroupMember m) => [.member m.groupId m.userId]
  | .update (.removeGroupMember g u) => [.member g u]
  | .update (.insertMessage m) => [.server m.serverMsgId]
  | _ => []

/-! ### Effects, seen through lookups -/

namespace Db

variable {d : Db} {m : GroupMember}

theorem get_insertConversationIfMissing (id : String) (typ : Int) (g : String) (now : Time)
    (c : String) :
    (d.insertConversationIfMissing id typ g now).conversations.get c =
      if c = id then
        some ((d.conversations.get id).getD
          { conversationId := id, type := typ, groupId := g, maxSeq := 0, createdAt := now,
            updatedAt := now })
      else d.conversations.get c :=
  get_insert_single (show Conversation.keys _ = [id] from rfl) c

theorem get_setConversationMaxSeq (id : String) (n : Int) (now : Time) (c : String) :
    (d.setConversationMaxSeq id n now).conversations.get c =
      (d.conversations.get c).map fun r ↦
        if c = id then { r with maxSeq := n, updatedAt := now } else r := by
  have h : _ = _ := get_update (t := d.conversations) (p := fun r ↦ r.conversationId = id)
    (f := fun r ↦ { r with maxSeq := n, updatedAt := now }) (fun _ ↦ rfl) c
  refine h.trans (map_congr fun r hr ↦ ?_)
  simp [conversationId_eq_of_get hr]

/-- An update of one row is seen under the key of that row only. -/
theorem get_updateUserConversation {f : UserConversation → UserConversation}
    {hf : ∀ uc, (f uc).keys = uc.keys} (o c o' c' : String) :
    (d.updateUserConversation o c f hf).userConversations.get (o', c') =
      (d.userConversations.get (o', c')).map fun r ↦ if o' = o ∧ c' = c then f r else r := by
  refine (get_update hf _).trans (map_congr fun r hr ↦ ?_)
  obtain ⟨ho, hc⟩ := ownerKey_eq_of_get hr
  simp [ho, hc]

/-- After an upsert there is a row under the key: the updated one, or else the new one. -/
theorem get_upsert {f : UserConversation → UserConversation} {hf : ∀ uc, (f uc).keys = uc.keys}
    {new : UserConversation} (o c : String) :
    (d.upsert f hf new).userConversations.get (o, c) =
      if o = new.ownerId ∧ c = new.conversationId then
        some (((d.userConversations.get (o, c)).map f).getD new)
      else d.userConversations.get (o, c) := by
  rw [upsert, get_insert_single (show new.keys = [(new.ownerId, new.conversationId)] from rfl)]
  simp only [get_update, Prod.mk.injEq]
  split
  · next h =>
    obtain ⟨rfl, rfl⟩ := h
    congr 2
    refine map_congr fun r hr ↦ ?_
    obtain ⟨ho, hc⟩ := ownerKey_eq_of_get hr
    simp [ho, hc]
  · next h =>
    rw [Option.map_congr (g := id) fun r hr ↦ ?_, Option.map_id_fun, id]
    obtain ⟨ho, hc⟩ := ownerKey_eq_of_get hr
    simp only [ho, hc, Bool.and_eq_true, decide_eq_true_eq, id_eq, ite_eq_right_iff]
    exact fun h' ↦ absurd h' h

theorem get_setUserConversationMaxSeq (o c : String) (n : Int) (o' c' : String) :
    (d.setUserConversationMaxSeq o c n).userConversations.get (o', c') =
      (d.userConversations.get (o', c')).map fun r ↦
        if o' = o ∧ c' = c then { r with maxSeq := n } else r :=
  get_updateUserConversation o c o' c'

theorem get_setUserConversationOpt (o c : String) (opt : Option Int) (pinned : Option Bool)
    (o' c' : String) :
    (d.setUserConversationOpt o c opt pinned).userConversations.get (o', c') =
      (d.userConversations.get (o', c')).map fun r ↦
        if o' = o ∧ c' = c then
          { r with recvMsgOpt := opt.getD r.recvMsgOpt, isPinned := pinned.getD r.isPinned }
        else r :=
  get_updateUserConversation o c o' c'

theorem get_advanceReadSeq (o c : String) (n : Int) (o' c' : String) :
    (d.advanceReadSeq o c n).userConversations.get (o', c') =
      (d.userConversations.get (o', c')).map fun r ↦
        if o' = o ∧ c' = c then { r with readSeq := max r.readSeq n } else r :=
  get_updateUserConversation o c o' c'

theorem get_upsertUserConversation (uc : UserConversation) (o c : String) :
    (d.upsertUserConversation uc).userConversations.get (o, c) =
      if o = uc.ownerId ∧ c = uc.conversationId then
        some (((d.userConversations.get (o, c)).map fun r ↦
          { r with minSeq := uc.minSeq, maxSeq := uc.maxSeq, readSeq := uc.readSeq,
                   updatedAt := uc.updatedAt }).getD { uc with createdAt := uc.updatedAt })
      else d.userConversations.get (o, c) :=
  get_upsert o c

theorem get_touchUserConversation (uc : UserConversation) (n : Int) (o c : String) :
    (d.touchUserConversation uc n).userConversations.get (o, c) =
      if o = uc.ownerId ∧ c = uc.conversationId then
        some (((d.userConversations.get (o, c)).map fun r ↦
          { r with updatedAt := max r.updatedAt uc.updatedAt, readSeq := max r.readSeq n }).getD
          (touched uc n))
      else d.userConversations.get (o, c) :=
  get_upsert o c

theorem get_deleteUserConversation (o c o' c' : String) :
    (d.deleteUserConversation o c).userConversations.get (o', c') =
      if o' = o ∧ c' = c then none else d.userConversations.get (o', c') := by
  rw [deleteUserConversation, get_delete]
  rcases h : d.userConversations.get (o', c') with - | r
  · simp
  · obtain ⟨ho, hc⟩ := ownerKey_eq_of_get h
    by_cases hk : o' = o ∧ c' = c <;> simp [ho, hc, hk, Option.filter]

theorem get_touchConversationMembers (id : String) (now : Time) (o c : String) :
    (d.touchConversationMembers id now).userConversations.get (o, c) =
      (d.userConversations.get (o, c)).map fun r ↦
        if c = id ∧ r.maxSeq = 0 then { r with updatedAt := max r.updatedAt now } else r := by
  have h : _ = _ := get_update (t := d.userConversations)
    (p := fun uc ↦ uc.conversationId = id && uc.maxSeq = 0)
    (f := fun uc ↦ { uc with updatedAt := max uc.updatedAt now }) (fun _ ↦ rfl) (o, c)
  refine h.trans (map_congr fun r hr ↦ ?_)
  obtain ⟨-, hc⟩ := ownerKey_eq_of_get hr
  simp [hc]

theorem get_removeGroupMember (g u g' u' : String) :
    (d.removeGroupMember g u).members.get (g', u') =
      if g' = g ∧ u' = u then none else d.members.get (g', u') := by
  rw [removeGroupMember, get_delete]
  rcases h : d.members.get (g', u') with - | r
  · simp
  · obtain ⟨hg, hu⟩ := memberKey_eq_of_get h
    by_cases hk : g' = g ∧ u' = u <;> simp [hg, hu, hk, Option.filter]

theorem get_addGroupMember (g u : String) :
    (d.addGroupMember m).members.get (g, u) =
      if g = m.groupId ∧ u = m.userId then some ((d.members.get (g, u)).getD m)
      else d.members.get (g, u) := by
  rw [addGroupMember, get_insert_single (show m.keys = [(m.groupId, m.userId)] from rfl)]
  simp only [Prod.mk.injEq]
  split
  · next h => obtain ⟨rfl, rfl⟩ := h; rfl
  · rfl

theorem get_createGroup {g : Group} (id : String) :
    (d.createGroup g).groups.get id =
      if id = g.id then some ((d.groups.get g.id).getD g) else d.groups.get id :=
  get_insert_single (show g.keys = [g.id] from rfl) id

theorem countGroupMembers_addGroupMember (h : d.members.Free m) (g : String) :
    (d.addGroupMember m).countGroupMembers g =
      d.countGroupMembers g + if m.groupId = g then 1 else 0 := by
  rw [countGroupMembers, addGroupMember, count_insert_of_free h, countGroupMembers]
  simp

/-- A removal takes one from the number of the group's members, if the member was there. -/
theorem countGroupMembers_removeGroupMember (g u g' : String) :
    (d.removeGroupMember g u).countGroupMembers g' +
        (if g' = g ∧ (d.members.get (g, u)).isSome then 1 else 0) =
      d.countGroupMembers g' := by
  have h := count_delete (t := d.members) (p := fun m ↦ m.groupId = g && m.userId = u)
    (q := fun m ↦ m.groupId = g')
  by_cases hg' : g' = g
  · have hkey := count_key (t := d.members) (k := (g, u))
      (p := fun m ↦ (m.groupId = g && m.userId = u) && m.groupId = g) fun m ↦ by
        simp only [GroupMember.keys, Bool.and_eq_true, decide_eq_true_eq, mem_singleton,
          Prod.mk.injEq]
        exact ⟨fun h ↦ ⟨h.2.symm, h.1.2.symm⟩, fun h ↦ ⟨⟨h.1.symm, h.2.symm⟩, h.1.symm⟩⟩
    rw [hg', hkey] at h
    simpa [countGroupMembers, removeGroupMember, hg'] using h
  · have hkey : (fun m : GroupMember ↦ (m.groupId = g && m.userId = u) && m.groupId = g') =
        fun _ ↦ false := by
      funext m
      by_cases hg : m.groupId = g <;> simp [hg, Ne.symm hg']
    rw [hkey] at h
    simpa [countGroupMembers, removeGroupMember, hg', Table.count] using h

/-- A row is free exactly when no row holds its primary key. -/
theorem free_group_iff {g : Group} : d.groups.Free g ↔ d.groups.get g.id = none := by
  simp [Table.Free, Group.keys]

theorem free_member_iff :
    d.members.Free m ↔ d.members.get (m.groupId, m.userId) = none := by
  simp [Table.Free, GroupMember.keys]

theorem free_message_iff {m : Message} :
    d.messages.Free m ↔ d.messages.get (.seq m.conversationId m.seq) = none ∧
      d.messages.get (.server m.serverMsgId) = none ∧
      d.messages.get (.client m.conversationId m.senderId m.clientMsgId) = none := by
  simp [Table.Free, Message.keys]

end Db

end Nexo
