import Nexo.Service.Outside
import Nexo.Lib.Logic

/-!
# What the locks of the store protect

The instance of `Relational.Isolation` for the statements of the store.

* The lock on a **conversation row** protects the row itself; which sequence numbers and client ids
  its messages have; who has a view row in it; and, for a group, the member rows and their number.
  Nobody changes these without locking the conversation first. The contents of view rows are *not*
  protected: read cursors and preferences are written without the lock.
* A **unique index entry** just inserted protects whether a row exists under it.
* A **role** may change at any time, and so may a group's **status**; what a transaction read of them
  may be stale when it commits, and `Adm` says so.

## Main results

* `agree_exec`: tables that agree on the keys held still do after an update that needs no others.
* `agree_write`: an update that holds what it touches is not noticed by those who hold other keys.
* `adm_stable`: the result of a statement that holds its keys is one to reckon with on all tables
  that agree.

These are the three conditions that the logic asks of the locks (`isolation`). A new statement has
to say which keys it needs and touches (`Update.needs`, `Update.touches`), and gets one case in
each.
-/

namespace Nexo

open Relational List Option Db Table

/-- A member row up to its role, which is changed from outside. -/
def GroupMember.eraseRole (m : GroupMember) : GroupMember := { m with role := 0 }

/-- The key that protects an entry of the message indexes. -/
def MessageIndex.key : MessageIndex → Key
  | .seq c _ => .conv c
  | .server id => .server id
  | .client c _ _ => .conv c

/-- The tables agree on everything protected by the keys, and groups have not disappeared. -/
structure Agree (ks : List Key) (d d' : Db) : Prop where
  conversations : ∀ c, .conv c ∈ ks → d.conversations.get c = d'.conversations.get c
  messages : ∀ i : MessageIndex, i.key ∈ ks →
    (d.messages.get i).isSome = (d'.messages.get i).isSome
  owners : ∀ o c, .conv c ∈ ks →
    (d.userConversations.get (o, c)).isSome = (d'.userConversations.get (o, c)).isSome
  members : ∀ g u, .conv (Conv.group g) ∈ ks →
    (d.members.get (g, u)).map (·.eraseRole) = (d'.members.get (g, u)).map (·.eraseRole)
  count : ∀ g, .conv (Conv.group g) ∈ ks → d.countGroupMembers g = d'.countGroupMembers g
  memberIds : ∀ g u, .member g u ∈ ks →
    (d.members.get (g, u)).isSome = (d'.members.get (g, u)).isSome
  groupIds : ∀ g, .group g ∈ ks → (d.groups.get g).isSome = (d'.groups.get g).isSome
  groups : ∀ id g, d.groups.get id = some g → ∃ s, d'.groups.get id = some { g with status := s }

namespace Agree

/-- Tables agree with themselves, whatever is held. -/
theorem refl (ks : List Key) (d : Db) : Agree ks d d := by
  constructor <;> intros <;> first | rfl | exact ⟨_, ‹_›⟩

theorem trans {ks : List Key} {d d' d'' : Db} (h : Agree ks d d') (h' : Agree ks d' d'') :
    Agree ks d d'' where
  conversations c hc := (h.conversations c hc).trans (h'.conversations c hc)
  messages i hi := (h.messages i hi).trans (h'.messages i hi)
  owners o c hc := (h.owners o c hc).trans (h'.owners o c hc)
  members g u hg := (h.members g u hg).trans (h'.members g u hg)
  count g hg := (h.count g hg).trans (h'.count g hg)
  memberIds g u hg := (h.memberIds g u hg).trans (h'.memberIds g u hg)
  groupIds g hg := (h.groupIds g hg).trans (h'.groupIds g hg)
  groups id g hg := by
    obtain ⟨s, hs⟩ := h.groups id g hg
    obtain ⟨s', hs'⟩ := h'.groups id _ hs
    exact ⟨s', hs'⟩

theorem mono {ks ks' : List Key} {d d' : Db} (hks : ks ⊆ ks') (h : Agree ks' d d') :
    Agree ks d d' where
  conversations c hc := h.conversations c (hks hc)
  messages i hi := h.messages i (hks hi)
  owners o c hc := h.owners o c (hks hc)
  members g u hg := h.members g u (hks hg)
  count g hg := h.count g (hks hg)
  memberIds g u hg := h.memberIds g u (hks hg)
  groupIds g hg := h.groupIds g (hks hg)
  groups := h.groups

variable {ks : List Key} {d d' e e' : Db}

/-! Two pairs of tables that differ in one table only. -/

section

variable (h : Agree ks d d')
include h

theorem setViews (he : e = { d with userConversations := e.userConversations })
    (he' : e' = { d' with userConversations := e'.userConversations })
    (ho : ∀ o c, .conv c ∈ ks →
      (e.userConversations.get (o, c)).isSome = (e'.userConversations.get (o, c)).isSome) :
    Agree ks e e' := by
  rw [he, he']
  exact { h with owners := ho }

theorem setConversations (he : e = { d with conversations := e.conversations })
    (he' : e' = { d' with conversations := e'.conversations })
    (hc : ∀ c, .conv c ∈ ks → e.conversations.get c = e'.conversations.get c) :
    Agree ks e e' := by
  rw [he, he']
  exact { h with conversations := hc }

theorem setMessages (he : e = { d with messages := e.messages })
    (he' : e' = { d' with messages := e'.messages })
    (hm : ∀ i : MessageIndex, i.key ∈ ks →
      (e.messages.get i).isSome = (e'.messages.get i).isSome) :
    Agree ks e e' := by
  rw [he, he']
  exact { h with messages := hm }

theorem setGroups (he : e = { d with groups := e.groups })
    (he' : e' = { d' with groups := e'.groups })
    (hi : ∀ g, .group g ∈ ks → (e.groups.get g).isSome = (e'.groups.get g).isSome)
    (hg : ∀ id g, e.groups.get id = some g →
      ∃ s, e'.groups.get id = some { g with status := s }) :
    Agree ks e e' := by
  rw [he, he']
  exact { h with groupIds := hi, groups := hg }

theorem setMembers (he : e = { d with members := e.members })
    (he' : e' = { d' with members := e'.members })
    (hi : ∀ g u, .member g u ∈ ks →
      (e.members.get (g, u)).isSome = (e'.members.get (g, u)).isSome)
    (hm : ∀ g u, .conv (Conv.group g) ∈ ks →
      (e.members.get (g, u)).map (·.eraseRole) = (e'.members.get (g, u)).map (·.eraseRole))
    (hc : ∀ g, .conv (Conv.group g) ∈ ks → e.countGroupMembers g = e'.countGroupMembers g) :
    Agree ks e e' := by
  rw [he, he']
  exact { h with memberIds := hi, members := hm, count := hc }

end

end Agree

/-! ### Reads and writes -/

/-- The keys on which the outcome of an update depends. -/
def Update.needs : Update → List Key
  | .createGroup g => [.group g.id]
  | .addGroupMembers ms => ms.map fun m ↦ .member m.groupId m.userId
  | .addGroupMember m => [.member m.groupId m.userId]
  | .removeGroupMember g u => [.member g u]
  | .createUserConversations ucs => ucs.map fun uc ↦ .conv uc.conversationId
  | .setUserConversationOpt _ c _ _ => [.conv c]
  | .insertMessage m => [.conv m.conversationId, .server m.serverMsgId]
  | _ => []

/-- The keys whose protected part an update may change. -/
def Update.touches : Update → List Key
  | .createGroup g => [.group g.id]
  | .addGroupMembers ms =>
    ms.flatMap fun m ↦ [.member m.groupId m.userId, .conv (Conv.group m.groupId)]
  | .addGroupMember m => [.member m.groupId m.userId, .conv (Conv.group m.groupId)]
  | .removeGroupMember g u => [.member g u, .conv (Conv.group g)]
  | .insertConversationIfMissing id _ _ _ => [.conv id]
  | .upsertUserConversation uc => [.conv uc.conversationId]
  | .createUserConversations ucs => ucs.map fun uc ↦ .conv uc.conversationId
  | .deleteUserConversation _ c => [.conv c]
  | .insertMessage m => [.conv m.conversationId, .server m.serverMsgId]
  | .setConversationMaxSeq c _ _ => [.conv c]
  | .touchUserConversation uc _ => [.conv uc.conversationId]
  | _ => []

/-- The result of a statement is settled by the keys held. Queries that the services run outside
transactions only are not covered. -/
def Reads (ks : List Key) : Stmt → Prop
  | .query (.getGroup _) => True
  | .query (.getGroupMember g _) => .conv (Conv.group g) ∈ ks
  | .query (.countGroupMembers g) => .conv (Conv.group g) ∈ ks
  | .query (.lockConversation c) => .conv c ∈ ks
  | .query _ => False
  | .update u => u.needs ⊆ ks

/-- A statement changes no more than the keys held protect. -/
def Writes (ks : List Key) : Stmt → Prop
  | .query _ => True
  | .update u => u.touches ⊆ ks

/-- Whoever holds more may write as much. -/
theorem Writes.mono {ks ks' : List Key} {s : Stmt} (h : Writes ks s) (hks : ks ⊆ ks') :
    Writes ks' s := by
  cases s with
  | query q => trivial
  | update u => exact List.Subset.trans h hks

/-- The results a transaction has to reckon with when it commits on tables `d`. A group may have
appeared since it was found missing; its status, and a member's role, may have changed since. -/
def Adm : (s : Stmt) → Db → Except StoreErr s.Val → Prop
  | .query (.getGroup id), d, r =>
    match r with
    | .ok g => ∃ s, d.groups.get id = some { (g : Group) with status := s }
    | .error e => e = .notFound
  | .query (.getGroupMember g u), d, r =>
    match r with
    | .ok m => ∃ role, d.members.get (g, u) = some { (m : GroupMember) with role := role }
    | .error e => e = .notFound ∧ d.members.get (g, u) = none
  | s, d, r => r = (s.exec d).1

/-! ### Which rows exist, after an update -/

section Exists

variable {d : Db}

theorem isSome_upsert {f : UserConversation → UserConversation} {hf : ∀ uc, (f uc).keys = uc.keys}
    {uc : UserConversation} (o c : String) :
    ((d.upsert f hf uc).userConversations.get (o, c)).isSome =
      (decide (o = uc.ownerId ∧ c = uc.conversationId) ||
        (d.userConversations.get (o, c)).isSome) := by
  rw [get_upsert]
  split <;> simp_all

theorem isSome_deleteUserConversation (o c o' c' : String) :
    ((d.deleteUserConversation o c).userConversations.get (o', c')).isSome =
      (decide (¬ (o' = o ∧ c' = c)) && (d.userConversations.get (o', c')).isSome) := by
  rw [get_deleteUserConversation]
  split <;> simp_all

theorem isSome_insertMessage {m : Message} (h : d.messages.Free m) (i : MessageIndex) :
    ((d.insertMessage m).messages.get i).isSome =
      (decide (i ∈ m.keys) || (d.messages.get i).isSome) := by
  rw [insertMessage, get_insert_of_free h]
  split <;> simp_all

end Exists

/-! ### An update on tables that agree -/

section Exec

variable {ks : List Key} {d d' : Db}

/-- Both bulk copies go through, or neither. -/
theorem none_or_some {α : Type} {o o' : Option α} (h : (∃ a, o = some a) ↔ ∃ a, o' = some a) :
    (o = none ∧ o' = none) ∨ ∃ a a', o = some a ∧ o' = some a' := by
  cases o <;> cases o' <;> simp_all

/-- Whether a group id is free is settled by its key, so that `CreateGroup` has the same outcome. -/
theorem free_group_congr {g : Group} (h : Agree ks d d') (hk : .group g.id ∈ ks) :
    d.groups.Free g ↔ d'.groups.Free g :=
  free_congr (by simpa [Group.keys] using h.groupIds g.id hk)

/-- One row is copied as many are. -/
theorem exec_addGroupMember (d : Db) (m : GroupMember) :
    ((Update.addGroupMember m).exec d).2 = ((Update.addGroupMembers [m]).exec d).2 := by
  by_cases hf : d.members.Free m <;> simp [Update.exec, insertAll?, addGroupMember, hf]

section

variable (h : Agree ks d d')
include h

/-- So is whether a member row is free. -/
theorem free_member_congr {m : GroupMember}
    (hk : .member m.groupId m.userId ∈ ks) : d.members.Free m ↔ d'.members.Free m :=
  free_congr (by simpa [GroupMember.keys] using h.memberIds _ _ hk)

/-- A bulk copy of member rows goes through on both tables or on neither. -/
theorem addGroupMembers_congr {ms : List GroupMember}
    (hk : ∀ m ∈ ms, .member m.groupId m.userId ∈ ks) :
    (∃ t, d.members.insertAll? ms = some t) ↔ ∃ t, d'.members.insertAll? ms = some t := by
  refine exists_insertAll?_congr fun k hkm ↦ ?_
  obtain ⟨m, hm, hkm⟩ := mem_flatMap.1 hkm
  simp only [GroupMember.keys, mem_singleton] at hkm
  exact hkm ▸ h.memberIds _ _ (hk m hm)

/-- So does one of view rows, whose existence the lock on the conversation protects. -/
theorem createUserConversations_congr {ucs : List UserConversation}
    (hk : ∀ uc ∈ ucs, .conv uc.conversationId ∈ ks) :
    (∃ t, d.userConversations.insertAll?
        (ucs.map fun uc ↦ { uc with createdAt := uc.updatedAt }) = some t) ↔
      ∃ t, d'.userConversations.insertAll?
        (ucs.map fun uc ↦ { uc with createdAt := uc.updatedAt }) = some t := by
  refine exists_insertAll?_congr fun k hkm ↦ ?_
  obtain ⟨r, hr, hkm⟩ := mem_flatMap.1 hkm
  obtain ⟨uc, huc, rfl⟩ := mem_map.1 hr
  simp only [UserConversation.keys, mem_singleton] at hkm
  exact hkm ▸ h.owners _ _ (hk uc huc)

theorem agree_createGroup {g : Group} (hk : .group g.id ∈ ks) :
    Agree ks ((Update.createGroup g).exec d).2 ((Update.createGroup g).exec d').2 := by
  have hfree := free_group_congr h hk
  by_cases hf : d.groups.Free g
  · simp only [Update.exec, if_pos hf, if_pos (hfree.1 hf)]
    have hnone := free_group_iff.1 hf
    have hnone' := free_group_iff.1 (hfree.1 hf)
    refine h.setGroups rfl rfl (fun id hid ↦ ?_) (fun id g' hg' ↦ ?_)
    · simp only [get_createGroup]
      split
      · rfl
      · exact h.groupIds id hid
    · simp only [get_createGroup] at hg' ⊢
      split at hg'
      · next hid =>
        simp only [hnone, getD_none, some.injEq] at hg'
        exact ⟨g.status, by simp [hid, hnone', ← hg']⟩
      · next hid => simpa [hid] using h.groups id g' hg'
  · simpa only [Update.exec, if_neg hf, if_neg fun hf' ↦ hf (hfree.2 hf')] using h

/-- A message is free if its three index entries are: two of them are protected by the lock on the
conversation, the third is its own key. -/
theorem free_message_congr {m : Message} (hc : .conv m.conversationId ∈ ks)
    (hs : .server m.serverMsgId ∈ ks) : d.messages.Free m ↔ d'.messages.Free m := by
  refine free_congr fun i hi ↦ ?_
  simp only [Message.keys, mem_cons, not_mem_nil, or_false] at hi
  rcases hi with rfl | rfl | rfl
  · exact h.messages _ hc
  · exact h.messages _ hs
  · exact h.messages _ hc

theorem agree_insertMessage {m : Message} (hc : .conv m.conversationId ∈ ks)
    (hs : .server m.serverMsgId ∈ ks) : Agree ks (d.insertMessage m) (d'.insertMessage m) := by
  have hfree := free_message_congr h hc hs
  by_cases hf : d.messages.Free m
  · refine h.setMessages rfl rfl fun i hi ↦ ?_
    rw [isSome_insertMessage hf, isSome_insertMessage (hfree.1 hf), h.messages i hi]
  · rw [insertMessage, insertMessage, insert_of_not_free hf,
      insert_of_not_free fun hf' ↦ hf (hfree.2 hf')]
    exact h

theorem agree_removeGroupMember {g u : String} (hk : .member g u ∈ ks) :
    Agree ks (d.removeGroupMember g u) (d'.removeGroupMember g u) := by
  refine h.setMembers rfl rfl (fun g' u' hg ↦ ?_) (fun g' u' hg ↦ ?_) fun g' hg ↦ ?_
  · simp only [get_removeGroupMember]
    split
    · rfl
    · exact h.memberIds g' u' hg
  · simp only [get_removeGroupMember]
    split
    · rfl
    · exact h.members g' u' hg
  · have hd := countGroupMembers_removeGroupMember (d := d) g u g'
    have hd' := countGroupMembers_removeGroupMember (d := d') g u g'
    rw [← h.memberIds g u hk, ← h.count g' hg] at hd'
    omega

theorem agree_addGroupMembers {ms : List GroupMember}
    (hk : ∀ m ∈ ms, .member m.groupId m.userId ∈ ks) :
    Agree ks ((Update.addGroupMembers ms).exec d).2 ((Update.addGroupMembers ms).exec d').2 := by
  obtain ⟨ht, ht'⟩ | ⟨t, t', ht, ht'⟩ := none_or_some (addGroupMembers_congr h hk)
  · simpa only [Update.exec, ht, ht'] using h
  · simp only [Update.exec, ht, ht']
    refine h.setMembers rfl rfl (fun g u hg ↦ ?_) (fun g u hg ↦ ?_) fun g hg ↦ ?_
    · rw [get_of_insertAll? ht, get_of_insertAll? ht', isSome_or,
        isSome_or, h.memberIds g u hg]
    · rw [get_of_insertAll? ht, get_of_insertAll? ht', map_or, map_or,
        h.members g u hg]
    · simp only [countGroupMembers, count_of_insertAll? ht, count_of_insertAll? ht']
      exact congrArg (· + _) (h.count g hg)

theorem agree_createUserConversations {ucs : List UserConversation}
    (hk : ∀ uc ∈ ucs, .conv uc.conversationId ∈ ks) :
    Agree ks ((Update.createUserConversations ucs).exec d).2
      ((Update.createUserConversations ucs).exec d').2 := by
  obtain ⟨ht, ht'⟩ | ⟨t, t', ht, ht'⟩ := none_or_some (createUserConversations_congr h hk)
  · simpa only [Update.exec, ht, ht'] using h
  · simp only [Update.exec, ht, ht']
    refine h.setViews rfl rfl fun o c hc ↦ ?_
    rw [get_of_insertAll? ht, get_of_insertAll? ht', isSome_or,
      isSome_or, h.owners o c hc]

end

/-- **An update keeps tables in agreement** if the keys on which its outcome depends are held. What
is read through those keys is the same on both, and so is what is written. -/
theorem agree_exec {u : Update} (hu : u.needs ⊆ ks) (h : Agree ks d d') :
    Agree ks (u.exec d).2 (u.exec d').2 := by
  cases u with
  | createGroup g => exact agree_createGroup h (hu (by simp [Update.needs]))
  | addGroupMembers ms =>
    exact agree_addGroupMembers h fun m hm ↦ hu (mem_map.2 ⟨m, hm, rfl⟩)
  | addGroupMember m =>
    rw [exec_addGroupMember, exec_addGroupMember]
    exact agree_addGroupMembers h (by simpa using hu (by simp [Update.needs]))
  | removeGroupMember g u => exact agree_removeGroupMember h (hu (by simp [Update.needs]))
  | insertConversationIfMissing id typ g now =>
    refine h.setConversations rfl rfl fun c hc ↦ ?_
    simp only [Update.exec, get_insertConversationIfMissing]
    split
    · next hid => rw [← hid, h.conversations c hc]
    · exact h.conversations c hc
  -- the rows that exist are a matter of the rows that existed
  | upsertUserConversation | touchUserConversation =>
    refine h.setViews rfl rfl fun o c hc ↦ (isSome_upsert o c).trans ?_
    rw [h.owners o c hc]
    exact (isSome_upsert o c).symm
  | deleteUserConversation =>
    refine h.setViews rfl rfl fun o c hc ↦ ?_
    simp only [Update.exec, isSome_deleteUserConversation, h.owners o c hc]
  | setUserConversationMaxSeq | setUserConversationOpt | touchConversationMembers | advanceReadSeq =>
    refine h.setViews rfl rfl fun o c hc ↦ ?_
    simp only [Update.exec, get_setUserConversationMaxSeq, get_setUserConversationOpt,
      get_touchConversationMembers, get_advanceReadSeq, isSome_map, h.owners o c hc]
  | createUserConversations ucs =>
    exact agree_createUserConversations h fun uc huc ↦ hu (mem_map.2 ⟨uc, huc, rfl⟩)
  | insertMessage m =>
    exact agree_insertMessage h (hu (by simp [Update.needs])) (hu (by simp [Update.needs]))
  | setConversationMaxSeq id n now =>
    refine h.setConversations rfl rfl fun c hc ↦ ?_
    simp only [Update.exec, get_setConversationMaxSeq, h.conversations c hc]

end Exec

/-! ### An update that holds what it touches -/

section Write

variable {ks : List Key} {d : Db}

/-- An insertion of member rows is not noticed by other groups. -/
theorem agree_addGroupMembers_of_notMem {ms : List GroupMember}
    (hm : ∀ m ∈ ms, .member m.groupId m.userId ∉ ks)
    (hc : ∀ m ∈ ms, .conv (Conv.group m.groupId) ∉ ks) :
    Agree ks d ((Update.addGroupMembers ms).exec d).2 := by
  rcases ht : d.members.insertAll? ms with - | t
  · simpa only [Update.exec, ht] using Agree.refl ks d
  simp only [Update.exec, ht]
  refine (Agree.refl ks d).setMembers rfl rfl (fun g u hg ↦ ?_) (fun g u hg ↦ ?_) fun g hg ↦ ?_
  · rw [get_of_insertAll?_of_notMem ht fun m hmem hkey ↦ hm m hmem ?_]
    obtain ⟨rfl, rfl⟩ := memberKey_eq_of_mem_keys hkey
    exact hg
  · rw [get_of_insertAll?_of_notMem ht fun m hmem hkey ↦ hc m hmem ?_]
    obtain ⟨rfl, rfl⟩ := memberKey_eq_of_mem_keys hkey
    exact hg
  · have hzero : ms.countP (fun m ↦ m.groupId = g) = 0 := by
      refine countP_eq_zero.2 fun m hmem heq ↦ hc m hmem ?_
      rw [of_decide_eq_true heq]
      exact hg
    simp only [countGroupMembers, count_of_insertAll? ht]
    omega

theorem agree_createUserConversations_of_notMem {ucs : List UserConversation}
    {t : Table UserConversation _ _} (ht : d.userConversations.insertAll? ucs = some t)
    (hc : ∀ uc ∈ ucs, .conv uc.conversationId ∉ ks) :
    Agree ks d { d with userConversations := t } := by
  refine (Agree.refl ks d).setViews rfl rfl fun o c hk ↦ ?_
  rw [get_of_insertAll?_of_notMem ht fun uc huc hkey ↦ hc uc huc ?_]
  obtain ⟨rfl, rfl⟩ := ownerKey_eq_of_mem_keys hkey
  exact hk

/-- **An update is not noticed** by whoever holds none of the keys that it touches. -/
theorem agree_write {u : Update} (hu : ∀ k ∈ u.touches, k ∉ ks) : Agree ks d (u.exec d).2 := by
  have hrefl := Agree.refl ks d
  cases u with
  | createGroup g =>
    have hk : .group g.id ∉ ks := hu _ (by simp [Update.touches])
    by_cases hf : d.groups.Free g
    · simp only [Update.exec, if_pos hf]
      refine hrefl.setGroups rfl rfl (fun id hid ↦ ?_) (fun id g' hg' ↦ ?_)
      · rw [get_createGroup, if_neg (by rintro rfl; exact hk hid)]
      · refine ⟨g'.status, ?_⟩
        rw [get_createGroup, if_neg (by rintro rfl; simp [free_group_iff.1 hf] at hg')]
        exact hg'
    · simpa only [Update.exec, if_neg hf] using hrefl
  | addGroupMembers ms =>
    exact agree_addGroupMembers_of_notMem
      (fun m hm ↦ hu _ (mem_flatMap.2 ⟨m, hm, by simp⟩))
      (fun m hm ↦ hu _ (mem_flatMap.2 ⟨m, hm, by simp⟩))
  | addGroupMember m =>
    rw [exec_addGroupMember]
    exact agree_addGroupMembers_of_notMem (by simpa using hu _ (by simp [Update.touches]))
      (by simpa using hu _ (by simp [Update.touches]))
  | removeGroupMember g u =>
    have hm : .member g u ∉ ks := hu _ (by simp [Update.touches])
    have hc : .conv (Conv.group g) ∉ ks := hu _ (by simp [Update.touches])
    refine hrefl.setMembers rfl rfl (fun g' u' hg ↦ ?_) (fun g' u' hg ↦ ?_) fun g' hg ↦ ?_
    · simp only [Update.exec, get_removeGroupMember]
      rw [if_neg]
      rintro ⟨rfl, rfl⟩
      exact hm hg
    · simp only [Update.exec, get_removeGroupMember]
      rw [if_neg]
      rintro ⟨rfl, rfl⟩
      exact hc hg
    · have hcount := countGroupMembers_removeGroupMember (d := d) g u g'
      rw [if_neg (by rintro ⟨rfl, -⟩; exact hc hg)] at hcount
      exact hcount.symm
  | insertConversationIfMissing id typ g now =>
    refine hrefl.setConversations rfl rfl fun c hc ↦ ?_
    simp only [Update.exec, get_insertConversationIfMissing]
    rw [if_neg]
    rintro rfl
    exact hu _ (by simp [Update.touches]) hc
  | upsertUserConversation | deleteUserConversation | touchUserConversation =>
    refine hrefl.setViews rfl rfl fun o c hc ↦ ?_
    simp only [Update.exec, get_upsertUserConversation, get_deleteUserConversation, get_touchUserConversation]
    rw [if_neg]
    rintro ⟨rfl, rfl⟩
    exact hu _ (by simp [Update.touches]) hc
  | setUserConversationMaxSeq | setUserConversationOpt | touchConversationMembers | advanceReadSeq =>
    refine hrefl.setViews rfl rfl fun o c _ ↦ ?_
    simp only [Update.exec, get_setUserConversationMaxSeq, get_setUserConversationOpt,
      get_touchConversationMembers, get_advanceReadSeq, isSome_map]
  | createUserConversations ucs =>
    rcases ht : d.userConversations.insertAll?
      (ucs.map fun uc ↦ { uc with createdAt := uc.updatedAt }) with - | t
    · simpa only [Update.exec, ht] using hrefl
    · simp only [Update.exec, ht]
      refine agree_createUserConversations_of_notMem ht fun uc huc ↦ ?_
      obtain ⟨uc', huc', rfl⟩ := mem_map.1 huc
      exact hu _ (mem_map.2 ⟨uc', huc', rfl⟩)
  | insertMessage m =>
    by_cases hf : d.messages.Free m
    · refine hrefl.setMessages rfl rfl fun i hi ↦ ?_
      have hnot : i ∉ m.keys := by
        intro hmem
        simp only [Message.keys, mem_cons, not_mem_nil, or_false] at hmem
        refine hu i.key ?_ hi
        rcases hmem with rfl | rfl | rfl <;> simp [Update.touches, MessageIndex.key]
      simp only [Update.exec, isSome_insertMessage hf, hnot, decide_false, Bool.false_or]
    · simpa only [Update.exec, insertMessage, insert_of_not_free hf] using hrefl
  | setConversationMaxSeq id n now =>
    refine hrefl.setConversations rfl rfl fun c hc ↦ ?_
    have hne : c ≠ id := by
      rintro rfl
      exact hu _ (by simp [Update.touches]) hc
    simp [Update.exec, get_setConversationMaxSeq, hne]

end Write

/-! ### Results -/

section Results

variable {ks : List Key} {d d' : Db}

/-- A statement returns a result that is to be reckoned with. -/
theorem adm_exec (s : Stmt) (d : Db) : Adm s d (s.exec d).1 := by
  cases s with
  | update u => rfl
  | query q =>
    cases q with
    | getGroup id =>
      rcases h : d.groups.get id with - | g
      · simp only [Adm, Stmt.exec, Query.exec, h]
        rfl
      · simpa [Adm, Stmt.exec, Query.exec, h] using ⟨g.status, rfl⟩
    | getGroupMember g u =>
      rcases h : d.members.get (g, u) with - | m
      · simp only [Adm, Stmt.exec, Query.exec, h]
        exact ⟨rfl, trivial⟩
      · simpa [Adm, Stmt.exec, Query.exec, h] using ⟨m.role, rfl⟩
    | _ => rfl

/-- The result of an update is settled by the keys it needs. -/
theorem result_congr {u : Update} (hu : u.needs ⊆ ks) (h : Agree ks d d') :
    (u.exec d).1 = (u.exec d').1 := by
  cases u with
  | createGroup g =>
    have hfree := free_group_congr h (hu (by simp [Update.needs]) : .group g.id ∈ ks)
    by_cases hf : d.groups.Free g
    · simp [Update.exec, hf, hfree.1 hf]
    · simp [Update.exec, hf, mt hfree.2 hf]
  | addGroupMembers ms =>
    obtain ⟨ht, ht'⟩ | ⟨t, t', ht, ht'⟩ := none_or_some
      (addGroupMembers_congr h fun m hm ↦ hu (mem_map.2 ⟨m, hm, rfl⟩)) <;>
      simp only [Update.exec, ht, ht']
  | addGroupMember m =>
    have hfree := free_member_congr h
      (hu (by simp [Update.needs]) : .member m.groupId m.userId ∈ ks)
    by_cases hf : d.members.Free m
    · simp [Update.exec, hf, hfree.1 hf]
    · simp [Update.exec, hf, mt hfree.2 hf]
  | removeGroupMember g u =>
    simp only [Update.exec, h.memberIds g u (hu (by simp [Update.needs]))]
  | createUserConversations ucs =>
    obtain ⟨ht, ht'⟩ | ⟨t, t', ht, ht'⟩ := none_or_some
      (createUserConversations_congr h fun uc huc ↦ hu (mem_map.2 ⟨uc, huc, rfl⟩)) <;>
      simp only [Update.exec, ht, ht']
  | setUserConversationOpt o c opt pinned =>
    simp only [Update.exec, h.owners o c (hu (by simp [Update.needs]))]
  | insertMessage m =>
    have hfree := free_message_congr (m := m) h (hu (by simp [Update.needs]))
      (hu (by simp [Update.needs]))
    simp only [Update.exec, decide_eq_decide.2 hfree]
  | _ => rfl

/-- **What was to be reckoned with, still is**, on tables that agree on what the statement has read.
-/
theorem adm_stable {s : Stmt} (hs : Reads ks s) (h : Agree ks d d') {r : Except StoreErr s.Val}
    (hr : Adm s d r) : Adm s d' r := by
  cases s with
  | update u =>
    have heq : r = (u.exec d).1 := hr
    exact heq.trans (result_congr hs h)
  | query q =>
    cases q with
    | getGroup id =>
      cases r with
      | error e => exact hr
      | ok g =>
        obtain ⟨s, hg⟩ := hr
        obtain ⟨s', hg'⟩ := h.groups id _ hg
        exact ⟨s', hg'⟩
    | getGroupMember g u =>
      have hm := h.members g u hs
      cases r with
      | error e =>
        obtain ⟨rfl, hnone⟩ := hr
        refine ⟨rfl, ?_⟩
        rw [hnone] at hm
        simpa using hm.symm
      | ok m =>
        obtain ⟨role, hsome⟩ := hr
        rw [hsome, map_some] at hm
        obtain ⟨m', hm', heq⟩ := map_eq_some_iff.1 hm.symm
        refine ⟨m'.role, hm'.trans (congrArg some ?_)⟩
        cases m
        cases m'
        simp_all [GroupMember.eraseRole]
    | countGroupMembers g =>
      have heq : r = .ok (d.countGroupMembers g : Int) := hr
      show r = .ok (d'.countGroupMembers g : Int)
      rw [heq, h.count g hs]
    | lockConversation c =>
      have heq : r = one (d.conversations.get c) := hr
      show r = one (d'.conversations.get c)
      rw [heq, h.conversations c hs]
    | _ => exact hs.elim

end Results

theorem reads_mono {ks ks' : List Key} {s : Stmt} (hks : ks ⊆ ks') (hs : Reads ks s) :
    Reads ks' s := by
  cases s with
  | update u => exact List.Subset.trans hs hks
  | query q =>
    cases q with
    | getGroup id => trivial
    | getGroupMember | countGroupMembers | lockConversation => exact hks hs
    | _ => exact hs.elim

/-- **The locks of the store isolate.** -/
def isolation : Isolation sig where
  Agree := Agree
  Adm := Adm
  Reads := Reads
  Writes := Writes
  agree_refl := Agree.refl
  agree_trans := Agree.trans
  agree_mono := Agree.mono
  reads_mono := reads_mono
  adm_exec := adm_exec
  adm_stable := fun hs h hr ↦ adm_stable hs h hr
  agree_exec := fun {_ s _ _} hs h ↦ match s with
    | .query _ => h
    | .update _ => agree_exec hs h
  agree_write := fun {_ _ s _} hs hd ↦ match s with
    | .query _ => Agree.refl _ _
    | .update _ => agree_write fun _ hk hk' ↦ hd hk' (hs hk)

end Nexo
