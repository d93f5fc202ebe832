import Nexo.Ledger.View

/-!
# The invariant of the ledger

`Inv` collects what holds of the tables between actions: the messages of a conversation are numbered
`1, ..., max_seq`; every view row is well formed and open exactly for active users; every group has
its owner, alone in that role, and no more members than the limit. Each action takes every view
through one transition of `ViewStep` (`Change.viewStep`) and keeps the rest (`Change.inv`).
-/

namespace Nexo

open Relational Message Option Db

/-! ### Activity -/

/-- A user is active in a conversation unless it is a group's and the user is not a member. -/
def Db.Active (d : Db) (o c : String) : Prop := ∀ g, c = Conv.group g → d.isMember g o = true

theorem Db.active_group {d : Db} {o g : String} : d.Active o (Conv.group g) ↔ d.isMember g o := by
  constructor
  · exact fun h ↦ h g rfl
  · intro h g' hg'
    rwa [← Conv.group_inj.1 hg']

theorem Db.active_single {d : Db} {o a b : String} : d.Active o (Conv.single a b) :=
  fun g hg ↦ absurd hg (Conv.single_ne_group a b g)

theorem Db.active_congr {d d' : Db} (h : ∀ g u, d'.isMember g u = d.isMember g u) (o c : String) :
    d'.Active o c ↔ d.Active o c := by
  simp [Db.Active, h]

/-- What holds of groups and their members: every member's group exists, its owner is a member and
alone in the owner's role, and the members are no more than the limit. -/
structure Roster (cfg : Config) (d : Db) : Prop where
  group : ∀ g u, d.isMember g u → (d.groups.get g).isSome
  ownerRole : ∀ g row, d.groups.get g = some row → ∀ u m,
    d.members.get (g, u) = some m → (m.role = roleOwner ↔ u = row.ownerId)
  ownerMember : ∀ g row, d.groups.get g = some row → d.isMember g row.ownerId
  count : ∀ g, (d.groups.get g).isSome → (d.countGroupMembers g : Int) ≤ cfg.maxMembers

/-- What holds of the tables between actions. -/
structure Inv (cfg : Config) (d : Db) : Prop where
  /-- The stored sequence numbers are exactly `1..max_seq`. -/
  seqs : ∀ c s, (d.messages.get (.seq c s)).isSome ↔ 1 ≤ s ∧ s ≤ d.maxSeq c
  /-- Every view is well formed, and open exactly while its owner is active. -/
  views : ∀ o c, ViewInv (d.maxSeq c) (d.Active o c) (d.view o c)
  /-- Every member has a view row. -/
  present : ∀ g u, d.isMember g u → (d.view u (Conv.group g)).isSome
  viewConv : ∀ o c, (d.view o c).isSome → (d.conversations.get c).isSome
  convGroup : ∀ g, (d.conversations.get (Conv.group g)).isSome → (d.groups.get g).isSome
  roster : Roster cfg d

/-- The tables right after the migration. -/
theorem Inv.empty (cfg : Config) (users : Table User String User.keys) :
    Inv cfg (empty users) where
  seqs c s := by simp [Db.empty, Db.maxSeq]; omega
  views o c := ⟨by simp [Db.empty, Db.maxSeq], by simp [Db.empty, Db.view],
    by simp [Db.empty, Db.view]⟩
  present g u := by simp [Db.empty, Db.isMember]
  viewConv o c := by simp [Db.empty, Db.view]
  convGroup g := by simp [Db.empty]
  roster :=
    { group := fun g u ↦ by simp [Db.empty, Db.isMember]
      ownerRole := fun g row h ↦ by simp [Db.empty] at h
      ownerMember := fun g row h ↦ by simp [Db.empty] at h
      count := fun g h ↦ by simp [Db.empty] at h }

/-! ### Counters -/

section Counters

variable {d : Db}

theorem Db.maxSeq_eq_of_conversations {d' : Db} (h : d'.conversations = d.conversations)
    (c : String) : d'.maxSeq c = d.maxSeq c := by
  rw [maxSeq, h, maxSeq]

@[simp] theorem Db.maxSeq_insertConversationIfMissing (id : String) (typ : Int) (g : String)
    (now : Time) (c : String) :
    (d.insertConversationIfMissing id typ g now).maxSeq c = d.maxSeq c := by
  rw [maxSeq, get_insertConversationIfMissing]
  split
  · next h =>
    subst h
    rcases hc : d.conversations.get c <;> simp [maxSeq, hc]
  · rfl

@[simp] theorem Db.maxSeq_lockedRow (conv : String) (typ : Int) (g : String) (now : Time) :
    (d.lockedRow conv typ g now).maxSeq = d.maxSeq conv := by
  rcases hc : d.conversations.get conv <;> simp [lockedRow, maxSeq, hc]

section

variable (inp : SendInput) (m : Message)
include inp m

theorem Db.conversations_touchSend :
    (d.touchSend inp m).conversations = d.conversations := by
  unfold touchSend
  split
  · rfl
  · split <;> rfl

theorem Db.messages_touchSend :
    (d.touchSend inp m).messages = d.messages := by
  unfold touchSend
  split
  · rfl
  · split <;> rfl

theorem Db.members_touchSend :
    (d.touchSend inp m).members = d.members := by
  unfold touchSend
  split
  · rfl
  · split <;> rfl

theorem Db.groups_touchSend :
    (d.touchSend inp m).groups = d.groups := by
  unfold touchSend
  split
  · rfl
  · split <;> rfl

theorem Db.get_conversations_afterSend (now : Time) (c : String) :
    (d.afterSend inp m now).conversations.get c =
      if c = inp.conversation then
        some { d.lockedRow inp.conversation inp.sessionType inp.groupId now with
          maxSeq := m.seq, updatedAt := m.sendTime }
      else d.conversations.get c := by
  rw [afterSend, conversations_touchSend, get_setConversationMaxSeq]
  change Option.map _ ((d.insertConversationIfMissing _ _ _ _).conversations.get c) = _
  rw [get_insertConversationIfMissing]
  split <;> simp [lockedRow]

theorem Db.maxSeq_afterSend (now : Time) (c : String) :
    (d.afterSend inp m now).maxSeq c = if c = inp.conversation then m.seq else d.maxSeq c := by
  rw [maxSeq, get_conversations_afterSend]
  split <;> simp [maxSeq]

theorem Db.messages_afterSend (now : Time) :
    (d.afterSend inp m now).messages = d.messages.insert m :=
  messages_touchSend inp m

theorem Db.members_afterSend (now : Time) :
    (d.afterSend inp m now).members = d.members :=
  members_touchSend inp m

theorem Db.groups_afterSend (now : Time) :
    (d.afterSend inp m now).groups = d.groups :=
  groups_touchSend inp m

end

end Counters

/-! ### Views after a send -/

section SendViews

variable {d : Db} {inp : SendInput} {m : Message} {now : Time}

theorem Db.view_afterSend_group (hs : inp.sessionType ≠ conversationSingle) (o c : String) :
    (d.afterSend inp m now).view o c = (d.view o c).map fun uc ↦
      { uc with
        updatedAt := if c = inp.conversation ∧ uc.maxSeq = 0 then max uc.updatedAt m.sendTime
          else uc.updatedAt
        readSeq := if inp.readTarget m.seq ≠ 0 ∧ o = inp.senderId ∧ c = inp.conversation then
          max uc.readSeq (inp.readTarget m.seq) else uc.readSeq } := by
  rw [view, afterSend, touchSend, if_neg hs]
  split
  · next hr =>
    rw [get_touchConversationMembers]
    refine map_congr fun uc _ ↦ ?_
    simp only [hr, ne_eq, not_true_eq_false, false_and, if_false]
    split <;> rfl
  · next hr =>
    rw [get_advanceReadSeq, get_touchConversationMembers, map_map]
    refine map_congr fun uc _ ↦ ?_
    simp only [Function.comp_apply, ne_eq, hr, not_false_eq_true, true_and]
    split <;> split <;> rfl

theorem Db.view_afterSend_single (hs : inp.sessionType = conversationSingle)
    (hne : inp.recvId ≠ inp.senderId) (o c : String) :
    (d.afterSend inp m now).view o c =
      if o = inp.senderId ∧ c = inp.conversation then
        some (((d.view o c).map fun uc ↦
          { uc with updatedAt := max uc.updatedAt m.sendTime,
                    readSeq := max uc.readSeq (inp.readTarget m.seq) }).getD
          (touched (inp.party inp.senderId inp.recvId m.sendTime) (inp.readTarget m.seq)))
      else if o = inp.recvId ∧ c = inp.conversation then
        some (((d.view o c).map fun uc ↦
          { uc with updatedAt := max uc.updatedAt m.sendTime, readSeq := max uc.readSeq 0 }).getD
          (touched (inp.party inp.recvId inp.senderId m.sendTime) 0))
      else d.view o c := by
  rw [view, afterSend, touchSend, if_pos hs, get_touchUserConversation,
    get_touchUserConversation]
  simp only [SendInput.party]
  by_cases ho : o = inp.senderId
  · subst ho
    simp [hne.symm, view]
    rfl
  · simp [ho, view]
    rfl

theorem Db.isMember_afterSend (g u : String) :
    (d.afterSend inp m now).isMember g u = d.isMember g u := by
  rw [isMember, members_afterSend, isMember]

theorem SendInput.conversation_of_single (hs : inp.sessionType = conversationSingle) :
    inp.conversation = Conv.single inp.senderId inp.recvId := if_pos hs

theorem SendInput.conversation_of_group (hs : inp.sessionType = conversationGroup) :
    inp.conversation = Conv.group inp.groupId := by
  rw [Message.SendInput.conversation, if_neg (by rw [hs]; decide)]

theorem SendInput.readTarget_le (inp : SendInput) {s : Int} (hs : 0 ≤ s) :
    0 ≤ inp.readTarget s ∧ inp.readTarget s ≤ s := by
  unfold Message.SendInput.readTarget
  split <;> omega

/-- **A send moves every view by one transition.** -/
theorem viewStep_send {cfg : Config} (hinv : Inv cfg d) (hadm : inp.Admitted d)
    (hseq : m.seq = d.maxSeq inp.conversation + 1) (o c : String) :
    ViewStep (d.maxSeq c) ((d.afterSend inp m now).maxSeq c) (d.Active o c)
      ((d.afterSend inp m now).Active o c) (d.view o c) ((d.afterSend inp m now).view o c) := by
  have hact : (d.afterSend inp m now).Active o c ↔ d.Active o c :=
    active_congr isMember_afterSend o c
  have hv := hinv.views o c
  have hnn := hv.nonneg
  by_cases hc : c = inp.conversation
  · have hn : (d.afterSend inp m now).maxSeq c = d.maxSeq c + 1 := by
      rw [maxSeq_afterSend, if_pos hc, hseq, hc]
    have hm : m.seq = (d.afterSend inp m now).maxSeq c := by rw [hn, hc, hseq]
    have hle : d.maxSeq c ≤ (d.afterSend inp m now).maxSeq c := by omega
    have hrt := SendInput.readTarget_le inp (s := m.seq) (by omega)
    rcases hadm with ⟨hs, hne, -⟩ | ⟨hs, hg, hmem⟩
    · -- a single chat: everybody is active, so an existing row is open
      have ha : d.Active o c := by
        rw [hc, SendInput.conversation_of_single hs]
        exact active_single
      rw [view_afterSend_single hs hne]
      simp only [hc, and_true]
      rw [← hc]
      split
      · exact .touch hle ha (hact.2 ha) hv hrt.1 (by omega) rfl rfl rfl fun _ ↦ ⟨rfl, rfl, rfl⟩
      · split
        · exact .touch hle ha (hact.2 ha) hv (Int.le_refl 0) (by omega) rfl rfl rfl
            fun _ ↦ ⟨rfl, rfl, rfl⟩
        · exact .same hle hact
    · -- a group: only the sender's cursor moves, and the sender's row is open
      rw [view_afterSend_group (by rw [hs]; decide)]
      rcases hvw : d.view o c with - | uc
      · exact .absent hle hact
      · refine .keep hle hact rfl rfl (by simp only; split <;> omega) ?_
        simp only
        split
        · next ho =>
          have ha : d.Active o c := by
            rw [hc, SendInput.conversation_of_group hs, ho.2.1]
            exact active_group.2 hmem
          have hopen : uc.maxSeq = 0 := (hv.open_iff uc hvw).2 ha
          simp only [Conv.visibleMax, hopen]
          omega
        · omega
  · -- another conversation
    have hn : (d.afterSend inp m now).maxSeq c = d.maxSeq c := by
      rw [maxSeq_afterSend, if_neg hc]
    have hvw : (d.afterSend inp m now).view o c = d.view o c := by
      rcases hadm with ⟨hs, hne, -⟩ | ⟨hs, -, -⟩
      · simp [view_afterSend_single hs hne, hc]
      · rw [view_afterSend_group (by rw [hs]; decide)]
        simp [hc]
    rw [hvw, hn]
    exact .same (Int.le_refl _) hact

end SendViews

/-! ### Views after a creation -/

section CreateViews

variable {cfg : Config} {d : Db} {g : Group} {ids : List String} {now : Time}
  {members : Table GroupMember (String × String) GroupMember.keys}
  {views : Table UserConversation (String × String) UserConversation.keys} {gid : String}

theorem Group.mem_newMembers {owner : String} {m : GroupMember} :
    m ∈ Group.newMembers owner gid ids now ↔ ∃ id ∈ ids,
      m = { groupId := gid, userId := id, role := if id = owner then roleOwner else roleMember,
            inviterUserId := if id = owner then "" else owner, joinedAt := now } := by
  simp [Group.newMembers, eq_comm]

/-- The stored form of a creation's view row. -/
def Group.newView (gid id : String) (now : Time) : UserConversation :=
  { ownerId := id, conversationId := Conv.group gid, type := conversationGroup, groupId := gid,
    minSeq := 1, updatedAt := now, createdAt := now }

theorem Group.newViews_stored :
    (Group.newViews gid ids now).map (fun uc ↦ { uc with createdAt := uc.updatedAt }) =
      ids.map fun id ↦ Group.newView gid id now := by
  simp [Group.newViews, Group.newView]

section

variable (h : d.members.insertAll? (Group.newMembers g.ownerId g.id ids now) = some members)
include h

theorem Db.get_members_afterCreate
    (g' u : String) :
    (d.afterCreate g now members views).members.get (g', u) =
      if g' = g.id ∧ u ∈ ids then
        some { groupId := g.id, userId := u, role := if u = g.ownerId then roleOwner else roleMember,
               inviterUserId := if u = g.ownerId then "" else g.ownerId, joinedAt := now }
      else d.members.get (g', u) := by
  change members.get (g', u) = _
  split
  · next hu =>
    obtain ⟨rfl, hu⟩ := hu
    exact Table.get_of_insertAll?_of_mem h (Group.mem_newMembers.2 ⟨u, hu, rfl⟩)
      (List.mem_singleton.2 rfl)
  · next hu =>
    refine Table.get_of_insertAll?_of_notMem h fun m hm hk ↦ hu ?_
    obtain ⟨id, hid, rfl⟩ := Group.mem_newMembers.1 hm
    obtain ⟨hg, hu⟩ := memberKey_eq_of_mem_keys hk
    exact ⟨hg.symm, by simpa [← hu] using hid⟩

theorem Db.isMember_afterCreate
    (g' u : String) :
    (d.afterCreate g now members views).isMember g' u =
      (decide (g' = g.id ∧ u ∈ ids) || d.isMember g' u) := by
  rw [isMember, get_members_afterCreate h, isMember]
  split <;> simp_all

end

section

variable (h : d.userConversations.insertAll?
    ((Group.newViews g.id ids now).map fun uc ↦ { uc with createdAt := uc.updatedAt }) = some views)
include h

theorem Db.view_afterCreate (o c : String) :
    (d.afterCreate g now members views).view o c =
      if c = Conv.group g.id ∧ o ∈ ids then some (Group.newView g.id o now) else d.view o c := by
  rw [Group.newViews_stored] at h
  change views.get (o, c) = _
  split
  · next ho =>
    obtain ⟨rfl, ho⟩ := ho
    exact Table.get_of_insertAll?_of_mem h (List.mem_map.2 ⟨o, ho, rfl⟩) (List.mem_singleton.2 rfl)
  · next ho =>
    refine Table.get_of_insertAll?_of_notMem h fun uc huc hk ↦ ho ?_
    obtain ⟨id, hid, rfl⟩ := List.mem_map.1 huc
    obtain ⟨hid', hc⟩ := ownerKey_eq_of_mem_keys hk
    exact ⟨hc.symm, by simpa [← hid', Group.newView] using hid⟩

theorem Db.view_eq_none_of_create {o : String} (ho : o ∈ ids) : d.view o (Conv.group g.id) = none := by
  rw [Group.newViews_stored] at h
  exact Table.get_eq_none_of_insertAll? h (List.mem_map.2 ⟨o, ho, rfl⟩) (List.mem_singleton.2 rfl)

end

theorem Db.maxSeq_afterCreate (c : String) :
    (d.afterCreate g now members views).maxSeq c = d.maxSeq c :=
  maxSeq_insertConversationIfMissing (d := { d.createGroup g with members := members }) ..

/-- Before its creation a group has no member, no conversation and no view. -/
theorem Inv.isMember_of_fresh (hinv : Inv cfg d) (hg : d.groups.get gid = none) (u : String) :
    d.isMember gid u = false := by
  rw [← Bool.not_eq_true]
  exact fun h ↦ by simpa [hg] using hinv.roster.group gid u h

theorem Inv.conversation_of_fresh (hinv : Inv cfg d) (hg : d.groups.get gid = none) :
    d.conversations.get (Conv.group gid) = none := by
  rw [← not_isSome_iff_eq_none]
  exact fun h ↦ by simpa [hg] using hinv.convGroup gid h

theorem Inv.maxSeq_of_fresh (hinv : Inv cfg d) (hg : d.groups.get gid = none) :
    d.maxSeq (Conv.group gid) = 0 := by
  simp [maxSeq, hinv.conversation_of_fresh hg]

theorem viewStep_create (hinv : Inv cfg d) (hg : d.groups.get g.id = none)
    (hmembers : d.members.insertAll? (Group.newMembers g.ownerId g.id ids now) = some members)
    (hviews : d.userConversations.insertAll?
      ((Group.newViews g.id ids now).map fun uc ↦ { uc with createdAt := uc.updatedAt }) =
        some views) (o c : String) :
    ViewStep (d.maxSeq c) ((d.afterCreate g now members views).maxSeq c) (d.Active o c)
      ((d.afterCreate g now members views).Active o c) (d.view o c)
      ((d.afterCreate g now members views).view o c) := by
  rw [maxSeq_afterCreate, view_afterCreate hviews]
  split
  · next ho =>
    obtain ⟨rfl, ho⟩ := ho
    have hzero := hinv.maxSeq_of_fresh hg
    rw [view_eq_none_of_create hviews ho]
    refine .appear (Int.le_refl _) (fun _ ↦ hzero) ?_ rfl rfl (Int.le_refl 0) hzero.ge
    rw [active_group, isMember_afterCreate hmembers]
    simp [ho]
  · next ho =>
    refine .same (Int.le_refl _) ?_
    refine forall₂_congr fun g' hc ↦ ?_
    rw [isMember_afterCreate hmembers]
    have hne : ¬ (g' = g.id ∧ o ∈ ids) := fun h ↦ ho ⟨by rw [hc, h.1], h.2⟩
    simp [hne]

end CreateViews

/-! ### Views after a join or a departure -/

section MemberViews

variable {cfg : Config} {d : Db} {g u : String} {now : Time}

theorem Db.isMember_afterJoin (g' u' : String) :
    (d.afterJoin g u now).isMember g' u' = (decide (g' = g ∧ u' = u) || d.isMember g' u') := by
  change ((addGroupMember _ _).members.get (g', u')).isSome = _
  rw [get_addGroupMember]
  split <;> simp_all [isMember, insertConversationIfMissing]

theorem Db.maxSeq_afterJoin (c : String) : (d.afterJoin g u now).maxSeq c = d.maxSeq c :=
  maxSeq_insertConversationIfMissing ..

theorem Db.view_afterJoin (o c : String) :
    (d.afterJoin g u now).view o c =
      if o = u ∧ c = Conv.group g then
        some (((d.view o c).map fun uc ↦
          { uc with minSeq := d.maxSeq (Conv.group g) + 1, maxSeq := 0,
                    readSeq := d.maxSeq (Conv.group g), updatedAt := now }).getD
          { ownerId := u, conversationId := Conv.group g, type := conversationGroup, groupId := g,
            minSeq := d.maxSeq (Conv.group g) + 1, readSeq := d.maxSeq (Conv.group g),
            updatedAt := now, createdAt := now })
      else d.view o c := by
  simp only [view, afterJoin, maxSeq_lockedRow]
  rw [get_upsertUserConversation]
  rfl

theorem viewStep_join (hm : d.members.get (g, u) = none) (o c : String) :
    ViewStep (d.maxSeq c) ((d.afterJoin g u now).maxSeq c) (d.Active o c)
      ((d.afterJoin g u now).Active o c) (d.view o c) ((d.afterJoin g u now).view o c) := by
  rw [maxSeq_afterJoin, view_afterJoin]
  split
  · next ho =>
    obtain ⟨rfl, rfl⟩ := ho
    refine .join rfl ?_ ?_ ?_ ?_ ?_
    · simp [active_group, isMember, hm]
    · simp [active_group, isMember_afterJoin]
    all_goals cases d.view o (Conv.group g) <;> rfl
  · next ho =>
    refine .same (Int.le_refl _) (forall₂_congr fun g' hc ↦ ?_)
    have hne : ¬ (g' = g ∧ o = u) := fun h ↦ ho ⟨h.2, by rw [hc, h.1]⟩
    simp [isMember_afterJoin, hne]

theorem Db.closeView_fields (c : String) (n : Int) :
    (d.closeView u c n).members = d.members ∧ (d.closeView u c n).conversations = d.conversations ∧
      (d.closeView u c n).groups = d.groups ∧ (d.closeView u c n).messages = d.messages := by
  unfold closeView
  split <;> exact ⟨rfl, rfl, rfl, rfl⟩

theorem Db.isMember_afterLeave (g' u' : String) :
    (d.afterLeave g u now).isMember g' u' = (decide (¬ (g' = g ∧ u' = u)) && d.isMember g' u') := by
  rw [isMember, afterLeave, (closeView_fields _ _).1, get_removeGroupMember]
  split <;> simp_all [isMember, insertConversationIfMissing]

theorem Db.maxSeq_afterLeave (c : String) : (d.afterLeave g u now).maxSeq c = d.maxSeq c := by
  rw [afterLeave, maxSeq_eq_of_conversations (closeView_fields _ _).2.1]
  exact maxSeq_insertConversationIfMissing ..

theorem Db.view_afterLeave (o c : String) :
    (d.afterLeave g u now).view o c =
      if o = u ∧ c = Conv.group g then
        if d.maxSeq (Conv.group g) = 0 then none
        else (d.view o c).map fun uc ↦ { uc with maxSeq := d.maxSeq (Conv.group g) }
      else d.view o c := by
  simp only [view, afterLeave, closeView, maxSeq_lockedRow]
  split
  · next hz =>
    rw [get_deleteUserConversation]
    rfl
  · next hz =>
    rw [get_setUserConversationMaxSeq]
    by_cases hk : o = u ∧ c = Conv.group g
    · simp only [hk, and_self, if_true]
      rfl
    · simp only [hk, if_false, map_id']
      rfl

theorem viewStep_leave (hinv : Inv cfg d) (hm : d.isMember g u) (o c : String) :
    ViewStep (d.maxSeq c) ((d.afterLeave g u now).maxSeq c) (d.Active o c)
      ((d.afterLeave g u now).Active o c) (d.view o c) ((d.afterLeave g u now).view o c) := by
  rw [maxSeq_afterLeave, view_afterLeave]
  split
  · next ho =>
    obtain ⟨rfl, rfl⟩ := ho
    obtain ⟨uc, huc⟩ := isSome_iff_exists.1 (hinv.present g o hm)
    have hnn := (hinv.views o (Conv.group g)).nonneg
    have hgone : ¬ (d.afterLeave g o now).Active o (Conv.group g) := by
      simp [active_group, isMember_afterLeave]
    rw [huc]
    split
    · next hz => exact .drop rfl hz (active_group.2 hm) hgone
    · exact .freeze rfl (by omega) (active_group.2 hm) hgone
  · next ho =>
    refine .same (Int.le_refl _) (forall₂_congr fun g' hc ↦ ?_)
    have hne : ¬ (g' = g ∧ o = u) := fun h ↦ ho ⟨h.2, by rw [hc, h.1]⟩
    simp [isMember_afterLeave, hne]

end MemberViews

/-! ### Every action -/

section Every

variable {cfg : Config} {d d' : Db} {a : Action}

theorem Db.isMember_setRole (g u : String) (role : Int) (g' u' : String) :
    (d.setRole g u role).isMember g' u' = d.isMember g' u' := by
  have h : _ = _ := Table.get_update (t := d.members)
    (p := fun m ↦ m.groupId = g && m.userId = u) (f := fun m ↦ { m with role := role })
    (fun _ ↦ rfl) (g', u')
  rw [isMember, isMember, setRole, h, isSome_map]

theorem Db.get_setRole (g u : String) (role : Int) (g' u' : String) :
    (d.setRole g u role).members.get (g', u') =
      (d.members.get (g', u')).map fun m ↦
        if g' = g ∧ u' = u then { m with role := role } else m := by
  have h : _ = _ := Table.get_update (t := d.members)
    (p := fun m ↦ m.groupId = g && m.userId = u) (f := fun m ↦ { m with role := role })
    (fun _ ↦ rfl) (g', u')
  refine h.trans (map_congr fun m hm ↦ ?_)
  obtain ⟨hg, hu⟩ := memberKey_eq_of_get hm
  simp [hg, hu]

theorem Db.get_setStatus (g : String) (status : Int) (g' : String) :
    (d.setStatus g status).groups.get g' =
      (d.groups.get g').map fun r ↦ if g' = g then { r with status := status } else r := by
  have h : _ = _ := Table.get_update (t := d.groups) (p := fun r ↦ r.id = g)
    (f := fun r ↦ { r with status := status }) (fun _ ↦ rfl) g'
  refine h.trans (map_congr fun r hr ↦ ?_)
  simp [groupId_eq_of_get hr]

/-- What the outside leaves alone. -/
structure Env.Same (d d' : Db) : Prop where
  conversations : d'.conversations = d.conversations
  messages : d'.messages = d.messages
  userConversations : d'.userConversations = d.userConversations
  isMember : ∀ g u, d'.isMember g u = d.isMember g u

theorem Env.same (h : Env d d') : Env.Same d d' := by
  cases h with
  | users t _ => exact ⟨rfl, rfl, rfl, fun _ _ ↦ rfl⟩
  | role _ _ _ => exact ⟨rfl, rfl, rfl, isMember_setRole _ _ _⟩
  | status g s => exact ⟨rfl, rfl, rfl, fun _ _ ↦ rfl⟩

theorem viewStep_read {o c : String} {n : Int} (hn : n ≤ d.visibleMax o c) (o' c' : String) :
    ViewStep (d.maxSeq c') ((d.advanceReadSeq o c n).maxSeq c') (d.Active o' c')
      ((d.advanceReadSeq o c n).Active o' c') (d.view o' c') ((d.advanceReadSeq o c n).view o' c') := by
  have hmax : (d.advanceReadSeq o c n).maxSeq c' = d.maxSeq c' := rfl
  have hact : (d.advanceReadSeq o c n).Active o' c' ↔ d.Active o' c' := Iff.rfl
  rw [hmax, show (d.advanceReadSeq o c n).view o' c' = _ from get_advanceReadSeq ..]
  change ViewStep _ _ _ _ (d.view o' c') (Option.map _ (d.view o' c'))
  rcases hvw : d.view o' c' with - | uc
  · exact .absent (Int.le_refl _) hact
  · rw [map_some]
    split
    · next ho =>
      obtain ⟨rfl, rfl⟩ := ho
      have hvis : d.visibleMax o' c' = Conv.visibleMax uc (d.maxSeq c') := by
        simp [visibleMax, hvw]
      have hsame : Conv.visibleMax { uc with readSeq := max uc.readSeq n } (d.maxSeq c') =
          Conv.visibleMax uc (d.maxSeq c') := rfl
      exact .keep (Int.le_refl _) hact rfl rfl (by simp only; omega) (by rw [hsame]; simp only; omega)
    · exact .same (Int.le_refl _) hact

theorem viewStep_setOpt {o c : String} (opt : Option Int) (pinned : Option Bool) (o' c' : String) :
    ViewStep (d.maxSeq c') ((d.setUserConversationOpt o c opt pinned).maxSeq c') (d.Active o' c')
      ((d.setUserConversationOpt o c opt pinned).Active o' c') (d.view o' c')
      ((d.setUserConversationOpt o c opt pinned).view o' c') := by
  have hmax : (d.setUserConversationOpt o c opt pinned).maxSeq c' = d.maxSeq c' := rfl
  have hact : (d.setUserConversationOpt o c opt pinned).Active o' c' ↔ d.Active o' c' := Iff.rfl
  rw [hmax, show (d.setUserConversationOpt o c opt pinned).view o' c' = _ from
    get_setUserConversationOpt ..]
  change ViewStep _ _ _ _ (d.view o' c') (Option.map _ (d.view o' c'))
  rcases d.view o' c' with - | uc
  · exact .absent (Int.le_refl _) hact
  · rw [map_some]
    split
    · exact .keep (Int.le_refl _) hact rfl rfl (Int.le_refl _) (by simp only; omega)
    · exact .same (Int.le_refl _) hact

/-- The sequence number of a message is one past the counter. -/
theorem seq_place (inp : SendInput) (id : String) (now : Time) :
    (place (newMessage inp inp.conversation id)
      (d.lockedRow inp.conversation inp.sessionType inp.groupId now) now).seq =
      d.maxSeq inp.conversation + 1 := by
  simp [place]

/-- **Every action moves every view by one transition.** -/
theorem Change.viewStep (hinv : Inv cfg d) (h : Change cfg d a d') (o c : String) :
    ViewStep (d.maxSeq c) (d'.maxSeq c) (d.Active o c) (d'.Active o c) (d.view o c) (d'.view o c) := by
  cases h with
  | send hadm hm _ => exact viewStep_send hinv hadm (by rw [hm, seq_place]) o c
  | create hg _ _ _ hmembers hviews => exact viewStep_create hinv hg hmembers hviews o c
  | join _ hm _ => exact viewStep_join hm o c
  | leave _ _ hm => exact viewStep_leave hinv hm o c
  | read hn => exact viewStep_read hn o c
  | setOpt opt pinned => exact viewStep_setOpt opt pinned o c
  | outside henv =>
    obtain ⟨hconv, -, hviews, hmem⟩ := henv.same
    rw [maxSeq_eq_of_conversations hconv, show d'.view o c = d.view o c by rw [view, hviews]; rfl]
    exact .same (Int.le_refl _) (active_congr hmem o c)

end Every

end Nexo
