import Nexo.Ledger.Preservation

/-!
# Where messages go

A view row of a single chat names the other party. The name is written when the row is inserted and
never again, so it has to be right for every later message of the conversation, in either direction:
it is, because the conversation's id determines its two parties (`Routed`).
-/

namespace Nexo

open Relational Message Option Db

/-- What a view row says of its conversation: the type and the other party. -/
def UserConversation.route (uc : UserConversation) : Int × String := (uc.type, uc.peerUserId)

section Routes

variable {cfg : Config} {d d' : Db} {a : Action} {o c : String}

/-- A single send gives its conversation to both parties. -/
structure Opens (inp : SendInput) (o c peer : String) : Prop where
  single : inp.sessionType = conversationSingle
  conversation : c = inp.conversation
  distinct : inp.recvId ≠ inp.senderId
  parties : o = inp.senderId ∧ peer = inp.recvId ∨ o = inp.recvId ∧ peer = inp.senderId

/-- **What an action does to the rows of single chats**: it leaves what they say alone, unless a
single send inserts the row of one of its parties. -/
theorem Change.route (h : Change cfg d a d') (hc : ∀ g, c ≠ Conv.group g) :
    (d'.view o c).map (·.route) = (d.view o c).map (·.route) ∨
      d.view o c = none ∧ ∃ inp m peer, a = .send inp m ∧ Opens inp o c peer ∧
        (d'.view o c).map (·.route) = some (conversationSingle, peer) := by
  cases h with
  | @send inp id now m hadm hm hfree =>
    rcases hadm with ⟨hs, hne, -⟩ | ⟨hs, -⟩
    · rw [view_afterSend_single hs hne]
      split_ifs with hsender hrecv
      · rcases hview : d.view o c with - | uc
        · refine .inr ⟨rfl, inp, m, inp.recvId, rfl, ⟨hs, hsender.2, hne, .inl ⟨hsender.1, rfl⟩⟩, ?_⟩
          exact congrArg (fun t ↦ some (t, inp.recvId)) hs
        · exact .inl rfl
      · rcases hview : d.view o c with - | uc
        · refine .inr ⟨rfl, inp, m, inp.senderId, rfl, ⟨hs, hrecv.2, hne, .inr ⟨hrecv.1, rfl⟩⟩, ?_⟩
          exact congrArg (fun t ↦ some (t, inp.senderId)) hs
        · exact .inl rfl
      · exact .inl rfl
    · rw [view_afterSend_group (by rw [hs]; decide), map_map]
      exact .inl rfl
  | create _ _ _ _ _ hviews =>
    rw [view_afterCreate hviews, if_neg fun hg ↦ hc _ hg.1]
    exact .inl rfl
  | join =>
    rw [view_afterJoin, if_neg fun hg ↦ hc _ hg.2]
    exact .inl rfl
  | leave =>
    rw [view_afterLeave, if_neg fun hg ↦ hc _ hg.2]
    exact .inl rfl
  | read =>
    rw [show view _ o c = _ from get_advanceReadSeq .., map_map]
    refine .inl (map_congr fun uc _ ↦ ?_)
    simp only [Function.comp_apply]
    split <;> rfl
  | setOpt =>
    rw [show view _ o c = _ from get_setUserConversationOpt .., map_map]
    refine .inl (map_congr fun uc _ ↦ ?_)
    simp only [Function.comp_apply]
    split <;> rfl
  | outside henv =>
    rw [view, view, henv.same.userConversations]
    exact .inl rfl

/-- What a row of a single chat says stays. -/
theorem Change.route_stays (h : Change cfg d a d') (hc : ∀ g, c ≠ Conv.group g) {r : Int × String}
    (hr : (d.view o c).map (·.route) = some r) : (d'.view o c).map (·.route) = some r := by
  rcases h.route hc with heq | ⟨hnone, -⟩
  · rw [heq, hr]
  · rw [hnone] at hr
    cases hr

/-- After a single send both parties have a row. -/
theorem Change.isSome_party {inp : SendInput} {m : Message} (h : Change cfg d (.send inp m) d')
    (hs : inp.sessionType = conversationSingle) :
    (d'.view inp.senderId inp.conversation).isSome ∧ (d'.view inp.recvId inp.conversation).isSome := by
  cases h with
  | send hadm _ _ =>
    rcases hadm with ⟨-, hne, -⟩ | ⟨hg, -⟩
    · rw [view_afterSend_single hs hne, view_afterSend_single hs hne, if_pos ⟨rfl, rfl⟩,
        if_neg fun h ↦ hne h.1, if_pos ⟨rfl, rfl⟩]
      exact ⟨rfl, rfl⟩
    · rw [hs] at hg
      exact absurd hg (by decide)

/-- The destination of a stored message is that of its send. -/
theorem Change.destination {inp : SendInput} {m : Message} (h : Change cfg d (.send inp m) d') :
    m.sessionType = inp.sessionType ∧ m.senderId = inp.senderId ∧ m.recvId = inp.recvId ∧
      m.groupId = inp.groupId ∧ m.conversationId = inp.conversation ∧ inp.Admitted d := by
  cases h with
  | send hadm hm _ =>
    subst hm
    exact ⟨rfl, rfl, rfl, rfl, rfl, hadm⟩

/-- The users that there are stay. -/
theorem Change.users_persist (h : Change cfg d a d') {u : String} (hu : (d.users.get u).isSome) :
    (d'.users.get u).isSome := by
  cases h with
  | @send inp _ now m _ _ _ =>
    have hsame : (d.afterSend inp m now).users = d.users := by
      rw [afterSend, touchSend]
      split_ifs <;> rfl
    rw [hsame]
    exact hu
  | leave =>
    rw [afterLeave, closeView]
    split_ifs <;> exact hu
  | outside henv =>
    cases henv with
    | users t ht => exact ht u hu
    | role | status => exact hu
  | create | join | read | setOpt => exact hu

/-- **The rows of single chats are of that type and name the other party.** -/
def Routed (d : Db) : Prop :=
  ∀ o c t peer, (∀ g, c ≠ Conv.group g) → (d.view o c).map (·.route) = some (t, peer) →
    t = conversationSingle ∧ c = Conv.single o peer ∧ ':' ∉ o.toList ∧ ':' ∉ peer.toList

theorem Routed.change (h : Routed d) (hchange : Change cfg d a d')
    (hsender : ∀ inp m, a = .send inp m → ':' ∉ inp.senderId.toList) : Routed d' := by
  intro o c t peer hc hr
  rcases hchange.route (o := o) hc with heq | ⟨-, inp, m, peer', rfl, hopens, hroute⟩
  · exact h o c t peer hc (heq ▸ hr)
  · obtain ⟨rfl, rfl⟩ : t = conversationSingle ∧ peer = peer' := by
      rw [hr, some_inj, Prod.mk.injEq] at hroute
      exact hroute
    have hcolon := hsender inp m rfl
    have hrecv : ':' ∉ inp.recvId.toList := by
      obtain ⟨-, -, -, -, -, hadm⟩ := hchange.destination
      rcases hadm with ⟨-, -, hrecv⟩ | ⟨hg, -⟩
      · exact hrecv
      · rw [hopens.single] at hg
        exact absurd hg (by decide)
    have hconv : c = Conv.single inp.senderId inp.recvId := by
      rw [hopens.conversation, SendInput.conversation, if_pos hopens.single]
    rcases hopens.parties with ⟨rfl, rfl⟩ | ⟨rfl, rfl⟩
    · exact ⟨rfl, hconv, hcolon, hrecv⟩
    · exact ⟨rfl, hconv.trans (Conv.single_comm _ _), hrecv, hcolon⟩

/-! ### Names -/

/-- **What an action does to the rows of group chats**: it leaves the type and the group alone, or
inserts a row that has them. -/
theorem Change.groupRow (h : Change cfg d a d') {g : String} {uc' : UserConversation}
    (hview : d'.view o (Conv.group g) = some uc') :
    (∃ uc, d.view o (Conv.group g) = some uc ∧ uc'.type = uc.type ∧ uc'.groupId = uc.groupId) ∨
      (uc'.type = conversationGroup ∧ uc'.groupId = g) := by
  -- the actions that only change other fields of the row
  have keep : ∀ {f : UserConversation → UserConversation},
      (d.view o (Conv.group g)).map f = some uc' →
      (∀ uc, (f uc).type = uc.type ∧ (f uc).groupId = uc.groupId) →
      ∃ uc, d.view o (Conv.group g) = some uc ∧ uc'.type = uc.type ∧ uc'.groupId = uc.groupId := by
    intro f hmap hf
    obtain ⟨uc, huc, rfl⟩ := map_eq_some_iff.1 hmap
    exact ⟨uc, huc, hf uc⟩
  have same : d.view o (Conv.group g) = some uc' →
      ∃ uc, d.view o (Conv.group g) = some uc ∧ uc'.type = uc.type ∧ uc'.groupId = uc.groupId :=
    fun h ↦ ⟨uc', h, rfl, rfl⟩
  cases h with
  | @send inp id now m hadm hm hfree =>
    rcases hadm with ⟨hs, hne, -⟩ | ⟨hs, -⟩
    · have hother : Conv.group g ≠ inp.conversation := by
        rw [SendInput.conversation_of_single hs]
        exact (Conv.single_ne_group _ _ _).symm
      rw [view_afterSend_single hs hne, if_neg fun h ↦ hother h.2, if_neg fun h ↦ hother h.2]
        at hview
      exact .inl (same hview)
    · rw [view_afterSend_group (by rw [hs]; decide)] at hview
      exact .inl (keep hview fun _ ↦ ⟨rfl, rfl⟩)
  | @create _ ids now members views _ _ _ _ _ hviews =>
    rw [view_afterCreate hviews] at hview
    split_ifs at hview with hnew
    · cases hview
      exact .inr ⟨rfl, (Conv.group_inj.1 hnew.1).symm⟩
    · exact .inl (same hview)
  | join =>
    rw [view_afterJoin] at hview
    split_ifs at hview with hnew
    · cases hview
      rcases hold : d.view o (Conv.group g) with - | uc
      · exact .inr ⟨rfl, (Conv.group_inj.1 hnew.2).symm⟩
      · exact .inl ⟨uc, rfl, rfl, rfl⟩
    · exact .inl (same hview)
  | leave =>
    rw [view_afterLeave] at hview
    split_ifs at hview with hleft hzero
    · exact .inl (keep hview fun _ ↦ ⟨rfl, rfl⟩)
    · exact .inl (same hview)
  | read =>
    rw [show view _ o _ = _ from get_advanceReadSeq ..] at hview
    exact .inl (keep hview fun _ ↦ by split <;> exact ⟨rfl, rfl⟩)
  | setOpt =>
    rw [show view _ o _ = _ from get_setUserConversationOpt ..] at hview
    exact .inl (keep hview fun _ ↦ by split <;> exact ⟨rfl, rfl⟩)
  | outside henv =>
    rw [view, henv.same.userConversations] at hview
    exact .inl (same hview)

/-- **Every row names its conversation**: by its group, or by the other party. -/
def Named (d : Db) : Prop :=
  ∀ o c uc, d.view o c = some uc →
    (uc.type = conversationGroup ∧ c = Conv.group uc.groupId) ∨
      (uc.type = conversationSingle ∧ c = Conv.single o uc.peerUserId ∧ uc.peerUserId ≠ o)

theorem Named.change (h : Named d) (hchange : Change cfg d a d') : Named d' := by
  intro o c uc' hview
  by_cases hc : ∃ g, c = Conv.group g
  · obtain ⟨g, rfl⟩ := hc
    rcases hchange.groupRow hview with ⟨uc, huc, htype, hgroup⟩ | ⟨htype, hgroup⟩
    · rw [htype, hgroup]
      rcases h o _ uc huc with hnamed | ⟨-, hsingle, -⟩
      · exact .inl hnamed
      · exact absurd hsingle.symm (Conv.single_ne_group _ _ _)
    · exact .inl ⟨htype, by rw [hgroup]⟩
  · have hne : ∀ g, c ≠ Conv.group g := fun g hg ↦ hc ⟨g, hg⟩
    have hroute : (d'.view o c).map (·.route) = some (uc'.type, uc'.peerUserId) := by rw [hview]; rfl
    right
    rcases hchange.route (o := o) hne with heq | ⟨-, inp, m, peer, -, hopens, hnew⟩
    · rw [heq] at hroute
      obtain ⟨uc, huc, hsame⟩ := map_eq_some_iff.1 hroute
      obtain ⟨htype, hpeer⟩ := Prod.mk.inj hsame
      rw [← htype, ← hpeer]
      rcases h o c uc huc with ⟨-, hg⟩ | hsingle
      · exact absurd hg (hne _)
      · exact hsingle
    · obtain ⟨htype, hpeer⟩ := Prod.mk.inj (some.inj (hroute.symm.trans hnew))
      have hconv : c = Conv.single inp.senderId inp.recvId := by
        rw [hopens.conversation, SendInput.conversation_of_single hopens.single]
      rw [htype, hpeer]
      rcases hopens.parties with ⟨rfl, rfl⟩ | ⟨rfl, rfl⟩
      · exact ⟨rfl, hconv, hopens.distinct⟩
      · exact ⟨rfl, hconv.trans (Conv.single_comm _ _), hopens.distinct.symm⟩

end Routes

end Nexo
