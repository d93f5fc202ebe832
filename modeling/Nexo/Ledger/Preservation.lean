import Nexo.Ledger.Invariant

/-!
# Every action keeps the invariant

`Change.inv` is the step lemma of the ledger; with it come the facts about one action that no
invariant states: messages are immutable, counters and conversation rows only grow, and a group
keeps its owner.

The parts of the invariant are kept one by one: the messages of a conversation (`seqs_of_change`),
its views (`viewConv_of_change`), a group's conversation (`convGroup_of_change`) and its roster
(`roster_of_change`). Each proof goes through the actions and keeps the rows that were there apart
from those of the conversation or group acted on.
-/

namespace Nexo

open Relational Message Option Db Conv

/-! ### Messages, counters, conversations -/

section Rest

variable {cfg : Config} {d d' : Db} {a : Action} {inp : SendInput} {m : Message}

/-- **Messages and counters**: a send stores one message one past the counter and advances the
counter to it; no other action touches either. -/
theorem Change.messages (h : Change cfg d a d') :
    (∃ inp m, a = .send inp m ∧ m.conversationId = inp.conversation ∧
      m.seq = d.maxSeq inp.conversation + 1 ∧ d.messages.Free m ∧
      d'.messages = d.messages.insert m ∧
      ∀ c, d'.maxSeq c = if c = inp.conversation then m.seq else d.maxSeq c) ∨
    (d'.messages = d.messages ∧ ∀ c, d'.maxSeq c = d.maxSeq c) := by
  cases h with
  | @send inp id now m _ hm hfree =>
    refine .inl ⟨inp, m, rfl, by rw [hm]; rfl, by rw [hm, seq_place], hfree,
      messages_afterSend inp m now, maxSeq_afterSend inp m now⟩
  | create => exact .inr ⟨rfl, maxSeq_afterCreate⟩
  | join => exact .inr ⟨rfl, maxSeq_afterJoin⟩
  | leave => exact .inr ⟨(closeView_fields _ _).2.2.2, maxSeq_afterLeave⟩
  | read | setOpt => exact .inr ⟨rfl, fun _ ↦ rfl⟩
  | outside henv =>
    exact .inr ⟨henv.same.messages, maxSeq_eq_of_conversations henv.same.conversations⟩

/-- A committed send finds its idempotency key free, and leaves its message there. -/
theorem Change.client_of_send (h : Change cfg d (.send inp m) d') :
    d.messages.get (.client inp.conversation inp.senderId inp.clientMsgId) = none ∧
      d'.messages.get (.client inp.conversation inp.senderId inp.clientMsgId) = some m := by
  cases h with
  | @send _ id now _ _ hm hfree =>
    have hkey : MessageIndex.client inp.conversation inp.senderId inp.clientMsgId ∈ m.keys := by
      rw [hm]
      simp [Message.keys, place, newMessage]
    refine ⟨hfree.2 _ hkey, ?_⟩
    rw [messages_afterSend, Table.get_insert_of_free hfree, if_pos hkey]

/-- A committed send stores a message that was not there. -/
theorem Change.stores (h : Change cfg d (.send inp m) d') :
    m ∉ d.messages.rows ∧ m ∈ d'.messages.rows := by
  obtain ⟨hnone, hsome⟩ := h.client_of_send
  refine ⟨fun hmem ↦ ?_, Table.mem_of_get hsome⟩
  exact Table.get_eq_none_iff.1 hnone m hmem (Table.mem_keys_of_get hsome)

/-- The sender of a message to a group is a member, before and after. -/
theorem Change.sender_isMember {g : String} (h : Change cfg d (.send inp m) d')
    (hg : m.conversationId = group g) :
    d.isMember g m.senderId = true ∧ d'.isMember g m.senderId = true := by
  cases h with
  | @send _ id now _ hadm hm _ =>
    have hconv : inp.conversation = group g := by
      rw [← hg, hm]
      rfl
    have hsender : m.senderId = inp.senderId := by
      rw [hm]
      rfl
    have hmem : d.isMember g m.senderId = true := by
      rw [hsender]
      rcases hadm with ⟨hs, -⟩ | ⟨hs, -, hmem⟩
      · rw [SendInput.conversation, if_pos hs] at hconv
        exact absurd hconv (single_ne_group _ _ _)
      · rw [SendInput.conversation, if_neg (by rw [hs]; decide)] at hconv
        rwa [← group_inj.1 hconv]
    refine ⟨hmem, ?_⟩
    rw [isMember, members_afterSend]
    exact hmem

/-- **Stored messages are never modified.** -/
theorem Change.messages_persist (h : Change cfg d a d') {i : MessageIndex}
    (hm : d.messages.get i = some m) : d'.messages.get i = some m := by
  rcases h.messages with ⟨inp, m', -, -, -, hfree, heq, -⟩ | ⟨heq, -⟩
  · rw [heq, Table.get_insert_of_free hfree, if_neg]
    · exact hm
    · intro hi
      simp [hfree.2 i hi] at hm
  · rw [heq, hm]

theorem seqs_of_change (hinv : Inv cfg d) (h : Change cfg d a d') (c : String) (s : Int) :
    (d'.messages.get (.seq c s)).isSome ↔ 1 ≤ s ∧ s ≤ d'.maxSeq c := by
  have hold := hinv.seqs c s
  have hnn := (hinv.views "" c).nonneg
  rcases h.messages with ⟨inp, m, -, hconv, hseq, hfree, heq, hmax⟩ | ⟨heq, hmax⟩
  · have hkey : MessageIndex.seq c s ∈ m.keys ↔ c = inp.conversation ∧ s = m.seq := by
      simp [Message.keys, hconv]
    rw [heq, Table.get_insert_of_free hfree, hmax]
    by_cases hc : c = inp.conversation
    · subst hc
      by_cases hs : s = m.seq
      · rw [if_pos (hkey.2 ⟨rfl, hs⟩), if_pos rfl]
        simp only [isSome_some, true_iff]
        omega
      · rw [if_neg fun h ↦ hs (hkey.1 h).2, hold, if_pos rfl]
        omega
    · rw [if_neg fun h ↦ hc (hkey.1 h).1, hold, if_neg hc]
  · rw [heq, hmax, hold]

/-- A send is no earlier than its conversation. -/
theorem updatedAt_le_place (msg : Message) (c : Conversation) (now : Time) :
    c.updatedAt ≤ (place msg c now).sendTime := by
  simp only [place]
  split
  · exact le_refl _
  · next hle => exact not_lt.1 hle

/-- **Conversation rows are never removed, and their time never goes back.** -/
theorem Change.conversation_mono (h : Change cfg d a d') {c : String} {cv : Conversation}
    (hc : d.conversations.get c = some cv) :
    ∃ cv', d'.conversations.get c = some cv' ∧ cv.updatedAt ≤ cv'.updatedAt := by
  have hins : ∀ (e : Db) id typ g now, e.conversations.get c = some cv →
      ∃ cv', (e.insertConversationIfMissing id typ g now).conversations.get c = some cv' ∧
        cv.updatedAt ≤ cv'.updatedAt := by
    intro e id typ g now he
    refine ⟨cv, ?_, Int.le_refl _⟩
    rw [get_insertConversationIfMissing]
    split
    · next heq => rw [← heq, he, getD_some]
    · exact he
  cases h with
  | @send inp id now m _ hm _ =>
    rw [get_conversations_afterSend]
    split
    · next heq =>
      refine ⟨_, rfl, ?_⟩
      have hle := updatedAt_le_place (newMessage inp inp.conversation id)
        (d.lockedRow inp.conversation inp.sessionType inp.groupId now) now
      rw [← hm, lockedRow, ← heq, hc] at hle
      exact hle
    · exact ⟨cv, hc, Int.le_refl _⟩
  | create | join => exact hins _ _ _ _ _ hc
  | leave =>
    rw [afterLeave, (closeView_fields _ _).2.1]
    exact hins _ _ _ _ _ hc
  | read | setOpt => exact ⟨cv, hc, Int.le_refl _⟩
  | outside henv => exact ⟨cv, by rwa [henv.same.conversations], Int.le_refl _⟩

theorem Change.conversations_persist (h : Change cfg d a d') {c : String}
    (hc : (d.conversations.get c).isSome) : (d'.conversations.get c).isSome := by
  obtain ⟨cv, hcv⟩ := isSome_iff_exists.1 hc
  obtain ⟨cv', hcv', -⟩ := h.conversation_mono hcv
  exact isSome_iff_exists.2 ⟨cv', hcv'⟩

theorem viewConv_of_change (hinv : Inv cfg d) (h : Change cfg d a d') (o c : String)
    (hv : (d'.view o c).isSome) : (d'.conversations.get c).isSome := by
  -- a row that was there before has its conversation; a new one is in the conversation acted on
  have hold : (d.view o c).isSome → (d'.conversations.get c).isSome :=
    fun h' ↦ h.conversations_persist (hinv.viewConv o c h')
  have hins : ∀ (e : Db) id typ g now,
      ((e.insertConversationIfMissing id typ g now).conversations.get id).isSome := by
    intro e id typ g now
    rw [get_insertConversationIfMissing, if_pos rfl]
    rfl
  cases h with
  | @send inp _ now m hadm _ _ =>
    by_cases hc : c = inp.conversation
    · rw [get_conversations_afterSend, if_pos hc]
      rfl
    · refine hold ?_
      rcases hadm with ⟨hs, hne, -⟩ | ⟨hs, -, -⟩
      · simpa [view_afterSend_single hs hne, hc] using hv
      · rw [view_afterSend_group (by rw [hs]; decide), isSome_map] at hv
        exact hv
  | create _ _ _ _ _ hviews =>
    rw [view_afterCreate hviews] at hv
    split at hv
    · next ho =>
      rw [ho.1]
      exact hins _ _ _ _ _
    · exact hold hv
  | join =>
    rw [view_afterJoin] at hv
    split at hv
    · next ho =>
      rw [ho.2]
      exact hins _ _ _ _ _
    · exact hold hv
  | leave =>
    rw [view_afterLeave] at hv
    split at hv
    · split at hv
      · simp at hv
      · exact hold (by simpa using hv)
    · exact hold hv
  | read =>
    rw [show view _ o c = _ from get_advanceReadSeq .., isSome_map] at hv
    exact hold hv
  | setOpt =>
    rw [show view _ o c = _ from get_setUserConversationOpt .., isSome_map] at hv
    exact hold hv
  | outside henv =>
    rw [view, henv.same.userConversations] at hv
    exact hold hv

theorem convGroup_of_change (hinv : Inv cfg d) (h : Change cfg d a d') (g : String)
    (hc : (d'.conversations.get (group g)).isSome) : (d'.groups.get g).isSome := by
  have hold := hinv.convGroup g
  cases h with
  | @send inp _ now m hadm _ _ =>
    rw [groups_afterSend]
    rw [get_conversations_afterSend] at hc
    split at hc
    · next heq =>
      rcases hadm with ⟨hs, -, -⟩ | ⟨hs, hg, -⟩
      · rw [SendInput.conversation_of_single hs] at heq
        exact absurd heq.symm (single_ne_group _ _ _)
      · rw [SendInput.conversation_of_group hs] at heq
        rwa [group_inj.1 heq]
    · exact hold hc
  | @create g' ids now members views hg _ _ _ _ _ =>
    change ((d.createGroup g').groups.get g).isSome
    rw [get_createGroup]
    split
    · rfl
    · next hne =>
      refine hold ?_
      change ((insertConversationIfMissing _ _ _ _ _).conversations.get _).isSome at hc
      rw [get_insertConversationIfMissing, if_neg fun h ↦ hne (group_inj.1 h)] at hc
      exact hc
  | @join g' u now hg _ _ =>
    change ((insertConversationIfMissing _ _ _ _ _).conversations.get _).isSome at hc
    rw [get_insertConversationIfMissing] at hc
    split at hc
    · next heq => rwa [group_inj.1 heq]
    · exact hold hc
  | @leave g' u now row hg _ _ =>
    rw [afterLeave, (closeView_fields _ _).2.1] at hc
    rw [afterLeave, (closeView_fields _ _).2.2.1]
    change ((insertConversationIfMissing _ _ _ _ _).conversations.get _).isSome at hc
    rw [get_insertConversationIfMissing] at hc
    split at hc
    · next heq =>
      rw [group_inj.1 heq]
      exact isSome_iff_exists.2 ⟨row, hg⟩
    · exact hold hc
  | read | setOpt => exact hold hc
  | outside henv =>
    rw [henv.same.conversations] at hc
    have hg := hold hc
    cases henv with
    | users | role => exact hg
    | status => rwa [get_setStatus, isSome_map]

end Rest

/-! ### Groups and members -/

section Groups

variable {cfg : Config} {d d' : Db}

theorem Roster.congr (h : Roster cfg d) (hg : d'.groups = d.groups) (hm : d'.members = d.members) :
    Roster cfg d' := by
  obtain ⟨h1, h2, h3, h4⟩ := h
  constructor
  · simpa only [isMember, hg, hm] using h1
  · simpa only [hg, hm] using h2
  · simpa only [isMember, hg, hm] using h3
  · simpa only [countGroupMembers, hg, hm] using h4

/-- A group nobody is a member of has no member rows. -/
theorem countGroupMembers_eq_zero {g : String} (h : ∀ u, d.isMember g u = false) :
    d.countGroupMembers g = 0 := by
  refine List.countP_eq_zero.2 fun m hm hg ↦ ?_
  have hget : d.members.get (g, m.userId) = some m :=
    Table.get_eq_some_iff.2 ⟨hm, by simp [GroupMember.keys, of_decide_eq_true hg]⟩
  simpa [isMember, hget] using h m.userId

section

variable (hinv : Inv cfg d)
include hinv

theorem roster_create {g : Group} {ids : List String} {now : Time}
    {members : Table GroupMember (String × String) GroupMember.keys}
    {views : Table UserConversation (String × String) UserConversation.keys}
    (hg : d.groups.get g.id = none) (howner : g.ownerId ∈ ids)
    (hlen : (ids.length : Int) ≤ cfg.maxMembers)
    (hmembers : d.members.insertAll? (Group.newMembers g.ownerId g.id ids now) = some members) :
    Roster cfg (d.afterCreate g now members views) := by
  have hfresh := hinv.isMember_of_fresh hg
  have hgroups : ∀ g', (d.afterCreate g now members views).groups.get g' =
      if g' = g.id then some g else d.groups.get g' := by
    intro g'
    change (d.createGroup g).groups.get g' = _
    rw [get_createGroup, hg, getD_none]
  refine ⟨fun g' u hm ↦ ?_, fun g' row hrow u m hm ↦ ?_, fun g' row hrow ↦ ?_, fun g' hg' ↦ ?_⟩
  · rw [hgroups]
    split
    · rfl
    · next hne =>
      rw [isMember_afterCreate hmembers] at hm
      exact hinv.roster.group g' u (by simpa [hne] using hm)
  · rw [hgroups] at hrow
    rw [get_members_afterCreate hmembers] at hm
    by_cases hne : g' = g.id
    · subst hne
      simp only [if_true, some.injEq] at hrow
      subst hrow
      by_cases hu : u ∈ ids
      · simp only [hu, and_self, if_true, some.injEq] at hm
        subst hm
        by_cases ho : u = g.ownerId <;> simp [ho]
      · simp only [hu, and_false, if_false] at hm
        simpa [isMember, hm] using hfresh u
    · simp only [hne, if_false] at hrow
      simp only [hne, false_and, if_false] at hm
      exact hinv.roster.ownerRole g' row hrow u m hm
  · rw [hgroups] at hrow
    rw [isMember_afterCreate hmembers]
    by_cases hne : g' = g.id
    · simp only [hne, if_true, some.injEq] at hrow
      simp [hne, ← hrow, howner]
    · simp only [hne, if_false] at hrow
      simp [hne, hinv.roster.ownerMember g' row hrow]
  · have hcount : (d.afterCreate g now members views).countGroupMembers g' =
        d.countGroupMembers g' +
          (Group.newMembers g.ownerId g.id ids now).countP fun m ↦ m.groupId = g' :=
      Table.count_of_insertAll? hmembers _
    rw [hcount]
    by_cases hne : g' = g.id
    · have hzero : d.countGroupMembers g' = 0 :=
        countGroupMembers_eq_zero (by rw [hne]; exact hfresh)
      have hall : (Group.newMembers g.ownerId g.id ids now).countP (fun m ↦ m.groupId = g') =
          ids.length := by
        rw [hne]
        simp [Group.newMembers, List.countP_map, Function.comp_def]
      rw [hzero, hall]
      simpa using hlen
    · have hnone : (Group.newMembers g.ownerId g.id ids now).countP (fun m ↦ m.groupId = g') =
          0 := by
        simp [Group.newMembers, List.countP_map, Function.comp_def, Ne.symm hne]
      rw [hgroups, if_neg hne] at hg'
      rw [hnone, Nat.add_zero]
      exact hinv.roster.count g' hg'

theorem roster_join {g u : String} {now : Time} (hg : (d.groups.get g).isSome)
    (hm : d.members.get (g, u) = none) (hlen : (d.countGroupMembers g : Int) < cfg.maxMembers) :
    Roster cfg (d.afterJoin g u now) := by
  have hgroups : (d.afterJoin g u now).groups = d.groups := rfl
  have hmembers : ∀ g' u', (d.afterJoin g u now).members.get (g', u') =
      if g' = g ∧ u' = u then
        some { groupId := g, userId := u, role := roleMember, joinedAt := now }
      else d.members.get (g', u') := by
    intro g' u'
    change (addGroupMember _ _).members.get (g', u') = _
    rw [get_addGroupMember]
    split
    · next h =>
      obtain ⟨rfl, rfl⟩ := h
      change some (getD (d.members.get _) _) = _
      rw [hm, getD_none]
    · rfl
  refine ⟨fun g' u' hmem ↦ ?_, fun g' row hrow u' m hmem ↦ ?_, fun g' row hrow ↦ ?_,
    fun g' hg' ↦ ?_⟩
  · rw [isMember_afterJoin] at hmem
    rw [hgroups]
    by_cases h : g' = g ∧ u' = u
    · rwa [h.1]
    · exact hinv.roster.group g' u' (by simpa [h] using hmem)
  · rw [hgroups] at hrow
    rw [hmembers] at hmem
    split at hmem
    · next h =>
      obtain ⟨rfl, rfl⟩ := h
      have howner := hinv.roster.ownerMember g' row hrow
      have hne : u' ≠ row.ownerId := by
        rintro rfl
        simp [isMember, hm] at howner
      cases hmem
      simp [hne]
    · exact hinv.roster.ownerRole g' row hrow u' m hmem
  · rw [hgroups] at hrow
    rw [isMember_afterJoin, hinv.roster.ownerMember g' row hrow, Bool.or_true]
  · have hfree : d.members.Free { groupId := g, userId := u, role := roleMember, joinedAt := now } :=
      free_member_iff.2 hm
    have hcount : (d.afterJoin g u now).countGroupMembers g' =
        d.countGroupMembers g' + if g = g' then 1 else 0 :=
      countGroupMembers_addGroupMember
        (d := d.insertConversationIfMissing (group g) conversationGroup g now) hfree g'
    have hold := hinv.roster.count g' hg'
    rw [hcount]
    split
    · next h =>
      subst h
      push_cast
      omega
    · simpa using hold

theorem roster_leave {g u : String} {now : Time} {row : Group}
    (hg : d.groups.get g = some row) (howner : u ≠ row.ownerId) :
    Roster cfg (d.afterLeave g u now) := by
  have hgroups : (d.afterLeave g u now).groups = d.groups := (closeView_fields _ _).2.2.1
  have hmembers : ∀ g' u', (d.afterLeave g u now).members.get (g', u') =
      if g' = g ∧ u' = u then none else d.members.get (g', u') := by
    intro g' u'
    rw [afterLeave, (closeView_fields _ _).1, get_removeGroupMember]
    rfl
  refine ⟨fun g' u' hmem ↦ ?_, fun g' row' hrow u' m hmem ↦ ?_, fun g' row' hrow ↦ ?_,
    fun g' hg' ↦ ?_⟩
  · rw [isMember_afterLeave] at hmem
    rw [hgroups]
    exact hinv.roster.group g' u' (by simp_all)
  · rw [hgroups] at hrow
    rw [hmembers] at hmem
    split at hmem
    · cases hmem
    · exact hinv.roster.ownerRole g' row' hrow u' m hmem
  · rw [hgroups] at hrow
    have hold := hinv.roster.ownerMember g' row' hrow
    rw [isMember_afterLeave, hold, Bool.and_true, decide_eq_true_eq]
    rintro ⟨rfl, rfl⟩
    exact howner (by rw [hg] at hrow; rw [some.inj hrow])
  · have hcount := countGroupMembers_removeGroupMember
      (d := d.insertConversationIfMissing (group g) conversationGroup g now) g u g'
    have heq : (d.afterLeave g u now).countGroupMembers g' = ((d.insertConversationIfMissing
        (group g) conversationGroup g now).removeGroupMember g u).countGroupMembers g' := by
      rw [countGroupMembers, afterLeave, (closeView_fields _ _).1, countGroupMembers]
    have hold : (d.countGroupMembers g' : Int) ≤ _ :=
      hinv.roster.count g' (by rwa [hgroups] at hg')
    have hsame : (d.insertConversationIfMissing (group g) conversationGroup g
        now).countGroupMembers g' = d.countGroupMembers g' := rfl
    rw [heq]
    omega

theorem roster_outside (h : Env d d') : Roster cfg d' := by
  cases h with
  | users t _ => exact hinv.roster.congr rfl rfl
  | @role g u m role hm hold hnew =>
    obtain ⟨h1, h2, h3, h4⟩ := hinv.roster
    refine ⟨fun g' u' hmem ↦ h1 g' u' (by rwa [isMember_setRole] at hmem),
      fun g' row hrow u' m' hmem ↦ ?_, fun g' row hrow ↦ ?_, fun g' hg' ↦ ?_⟩
    · rw [get_setRole] at hmem
      obtain ⟨m₀, hm₀, rfl⟩ := map_eq_some_iff.1 hmem
      have hiff := h2 g' row hrow u' m₀ hm₀
      split
      · next heq =>
        obtain ⟨rfl, rfl⟩ := heq
        obtain rfl := some.inj (hm.symm.trans hm₀)
        have hne : role ≠ roleOwner := by rcases hnew with rfl | rfl <;> decide
        simpa [hne] using mt hiff.2 hold
      · exact hiff
    · rw [isMember_setRole]
      exact h3 g' row hrow
    · have hcount : (d.setRole g u role).countGroupMembers g' = d.countGroupMembers g' :=
        Table.count_update (t := d.members) (f := fun m ↦ { m with role := role }) (fun _ ↦ rfl)
          fun _ ↦ rfl
      rw [hcount]
      exact h4 g' hg'
  | status g s =>
    obtain ⟨h1, h2, h3, h4⟩ := hinv.roster
    have howner : ∀ g' row, (d.setStatus g s).groups.get g' = some row →
        ∃ row₀, d.groups.get g' = some row₀ ∧ row.ownerId = row₀.ownerId := by
      intro g' row hrow
      rw [get_setStatus] at hrow
      obtain ⟨row₀, hrow₀, rfl⟩ := map_eq_some_iff.1 hrow
      exact ⟨row₀, hrow₀, by split <;> rfl⟩
    refine ⟨fun g' u' hmem ↦ ?_, fun g' row hrow u' m' hmem ↦ ?_, fun g' row hrow ↦ ?_,
      fun g' hg' ↦ ?_⟩
    · rw [get_setStatus, isSome_map]
      exact h1 g' u' hmem
    · obtain ⟨row₀, hrow₀, heq⟩ := howner g' row hrow
      rw [heq]
      exact h2 g' row₀ hrow₀ u' m' hmem
    · obtain ⟨row₀, hrow₀, heq⟩ := howner g' row hrow
      rw [heq]
      exact h3 g' row₀ hrow₀
    · rw [get_setStatus, isSome_map] at hg'
      exact h4 g' hg'

theorem roster_of_change {a : Action} (h : Change cfg d a d') : Roster cfg d' := by
  cases h with
  | send => exact hinv.roster.congr (groups_afterSend ..) (members_afterSend ..)
  | create hg _ howner hlen hmembers _ => exact roster_create hinv hg howner hlen hmembers
  | join hg hm hlen => exact roster_join hinv hg hm hlen
  | leave hg howner _ => exact roster_leave hinv hg howner
  | read | setOpt => exact hinv.roster.congr rfl rfl
  | outside henv => exact roster_outside hinv henv

end

end Groups

/-- A group is never removed, and only its status changes. -/
theorem Change.groups_persist {cfg : Config} {d d' : Db} {a : Action} (h : Change cfg d a d')
    {id : String} {g : Group} (hg : d.groups.get id = some g) :
    ∃ s, d'.groups.get id = some { g with status := s } := by
  cases h with
  | send => exact ⟨g.status, by rw [groups_afterSend, hg]⟩
  | @create g' _ _ _ _ hfresh =>
    have hne : id ≠ g'.id := by
      rintro rfl
      rw [hfresh] at hg
      cases hg
    refine ⟨g.status, ?_⟩
    change (d.createGroup g').groups.get id = _
    rw [get_createGroup, if_neg hne, hg]
  | join => exact ⟨g.status, hg⟩
  | leave => exact ⟨g.status, by rw [afterLeave, (closeView_fields _ _).2.2.1]; exact hg⟩
  | read | setOpt => exact ⟨g.status, hg⟩
  | outside henv =>
    cases henv with
    | users | role => exact ⟨g.status, hg⟩
    | status id' s =>
      rw [get_setStatus, hg, map_some]
      by_cases heq : id = id'
      · exact ⟨s, by simp [heq]⟩
      · exact ⟨g.status, by simp [heq]⟩

/-! ### The step lemma -/

/-- **Every action keeps the invariant.** -/
theorem Change.inv {cfg : Config} {d d' : Db} {a : Action} (h : Change cfg d a d')
    (hinv : Inv cfg d) : Inv cfg d' where
  seqs := seqs_of_change hinv h
  views o c := (h.viewStep hinv o c).inv (hinv.views o c)
  present g u hm := (h.viewStep hinv u (group g)).isSome_of_active
    (fun ha ↦ hinv.present g u (active_group.1 ha)) (active_group.2 hm)
  viewConv := viewConv_of_change hinv h
  convGroup := convGroup_of_change hinv h
  roster := roster_of_change hinv h

end Nexo
