import Nexo.Ledger.Preservation

/-!
# Times

Every call brings its own clock reading, taken before it locks anything; readings may disagree and
go backwards. What makes times usable all the same is that a send never stores a time before that of
its conversation. `Clock` is what follows for messages; `Db.Dated` is what follows for the sort key
of a user's list: a view is no earlier than the last message its owner may see.

The sort key of a view *may* go back: a join sets it to the reading of the call. It does no harm,
because whoever joins sees nothing yet.
-/

namespace Nexo

open Relational Message Option Db Conv

variable {cfg : Config} {d d' : Db} {a : Action} {inp : SendInput} {m : Message} {c o : String}

/-! ### Messages -/

/-- Message times follow sequence numbers, and stay below the time of the conversation. -/
structure Clock (d : Db) : Prop where
  le_conversation : ∀ c s m, d.messages.get (.seq c s) = some m →
    ∃ cv, d.conversations.get c = some cv ∧ m.sendTime ≤ cv.updatedAt
  sorted : ∀ c s s' m m', s ≤ s' → d.messages.get (.seq c s) = some m →
    d.messages.get (.seq c s') = some m' → m.sendTime ≤ m'.sendTime

theorem Clock.empty (users : Table User String User.keys) : Clock (empty users) where
  le_conversation c s m h := by simp [Db.empty] at h
  sorted c s s' m m' _ h := by simp [Db.empty] at h

/-- A send is no earlier than its conversation was, and sets the conversation's time. -/
theorem Change.sendTime (h : Change cfg d (.send inp m) d') :
    (∀ cv, d.conversations.get inp.conversation = some cv → cv.updatedAt ≤ m.sendTime) ∧
      ∃ cv', d'.conversations.get inp.conversation = some cv' ∧ cv'.updatedAt = m.sendTime := by
  have hset : ∃ cv', d'.conversations.get inp.conversation = some cv' ∧
      cv'.updatedAt = m.sendTime := by
    cases h with
    | send =>
      rw [get_conversations_afterSend, if_pos rfl]
      exact ⟨_, rfl, rfl⟩
  refine ⟨fun cv hcv ↦ ?_, hset⟩
  obtain ⟨cv', hcv', htime⟩ := hset
  obtain ⟨cv'', hcv'', hle⟩ := h.conversation_mono hcv
  obtain rfl := some.inj (hcv'.symm.trans hcv'')
  rwa [← htime]

/-- The message behind a sequence number: an old one, or the one that is being sent. -/
theorem Change.message_cases (h : Change cfg d a d') {s : Int}
    (hm : d'.messages.get (.seq c s) = some m) :
    d.messages.get (.seq c s) = some m ∨
      ∃ inp, a = .send inp m ∧ c = inp.conversation ∧ s = d.maxSeq c + 1 := by
  rcases h.messages with ⟨inp, m', rfl, hconv, hseq, hfree, heq, -⟩ | ⟨heq, -⟩
  · rw [heq, Table.get_insert_of_free hfree] at hm
    split at hm
    · next hkey =>
      obtain rfl := some.inj hm
      obtain ⟨rfl, rfl⟩ : c = inp.conversation ∧ s = m'.seq := by
        simpa [Message.keys, hconv] using hkey
      exact .inr ⟨inp, rfl, rfl, hseq⟩
    · exact .inl hm
  · exact .inl (heq ▸ hm)

/-- **Every action keeps message times in order.** -/
theorem Change.clock (hinv : Inv cfg d) (h : Change cfg d a d') (hclock : Clock d) : Clock d' where
  le_conversation c s m hm := by
    rcases h.message_cases hm with hold | ⟨inp, rfl, rfl, -⟩
    · obtain ⟨cv, hcv, hle⟩ := hclock.le_conversation c s m hold
      obtain ⟨cv', hcv', hmono⟩ := h.conversation_mono hcv
      exact ⟨cv', hcv', hle.trans hmono⟩
    · obtain ⟨-, cv', hcv', htime⟩ := h.sendTime
      exact ⟨cv', hcv', htime.ge⟩
  sorted c s s' m m' hs hm hm' := by
    have hbound : ∀ {s m}, d.messages.get (.seq c s) = some m → s ≤ d.maxSeq c := fun hm ↦
      ((hinv.seqs c _).1 (isSome_iff_exists.2 ⟨_, hm⟩)).2
    rcases h.message_cases hm with hold | ⟨inp, rfl, rfl, hseq⟩
    · rcases h.message_cases hm' with hold' | ⟨inp, rfl, rfl, -⟩
      · exact hclock.sorted c s s' m m' hs hold hold'
      -- the new message is the latest
      · obtain ⟨cv, hcv, hle⟩ := hclock.le_conversation _ s m hold
        exact hle.trans (h.sendTime.1 cv hcv)
    · rcases h.message_cases hm' with hold' | ⟨inp', heq, -⟩
      · have := hbound hold'
        omega
      · cases heq
        exact le_refl _

/-! ### Views -/

/-- **The view is up to date**: no earlier than the last message its owner may see. -/
def Db.Dated (d : Db) (o c : String) : Prop :=
  ∀ uc m, d.view o c = some uc → uc.minSeq ≤ Conv.visibleMax uc (d.maxSeq c) →
    d.messages.get (.seq c (Conv.visibleMax uc (d.maxSeq c))) = some m → m.sendTime ≤ uc.updatedAt

/-- **No send lowers the time of a view.** -/
theorem Change.view_mono (h : Change cfg d (.send inp m) d') {uc : UserConversation}
    (huc : d.view o c = some uc) :
    ∃ uc', d'.view o c = some uc' ∧ uc.updatedAt ≤ uc'.updatedAt := by
  cases h with
  | send hadm hm _ =>
    rcases hadm with ⟨hs, hne, -⟩ | ⟨hs, -, -⟩
    · rw [view_afterSend_single hs hne, huc]
      split
      · exact ⟨_, rfl, le_max_left _ _⟩
      · split
        · exact ⟨_, rfl, le_max_left _ _⟩
        · exact ⟨uc, rfl, le_refl _⟩
    · rw [view_afterSend_group (by rw [hs]; decide), huc]
      refine ⟨_, rfl, ?_⟩
      simp only
      split
      · exact le_max_left _ _
      · exact le_refl _

/-- How the row of a view may have come about. -/
inductive ViewTime (d : Db) (a : Action) (o c : String) (n' : Int) (uc' : UserConversation) : Prop
    where
  /-- It shows nothing. -/
  | empty (h : Conv.visibleMax uc' n' < uc'.minSeq)
  /-- It shows what it showed before. -/
  | kept {uc : UserConversation} (h : d.view o c = some uc) (hmin : uc.minSeq = uc'.minSeq)
      (hmax : Conv.visibleMax uc' n' = Conv.visibleMax uc (d.maxSeq c))
      (htime : uc.updatedAt ≤ uc'.updatedAt)
  /-- It was touched by a send. -/
  | touched {inp : SendInput} {m : Message} (ha : a = .send inp m) (hc : c = inp.conversation)
      (htime : m.sendTime ≤ uc'.updatedAt)

/-- The users a send to a single chat concerns are the only ones with a view of it. -/
def OnlyParties (d : Db) (a : Action) (o c : String) : Prop :=
  ∀ inp m, a = .send inp m → inp.sessionType = conversationSingle → c = inp.conversation →
    (d.view o c).isSome → o = inp.senderId ∨ o = inp.recvId

theorem viewTime_send {now : Time} {uc' : UserConversation} (hinv : Inv cfg d)
    (hadm : inp.Admitted d) (hseq : m.seq = d.maxSeq inp.conversation + 1)
    (hparty : OnlyParties d (.send inp m) o c) (huc' : (d.afterSend inp m now).view o c = some uc') :
    
    ViewTime d (.send inp m) o c ((d.afterSend inp m now).maxSeq c) uc' := by
  rcases hadm with ⟨hs, hne, -⟩ | ⟨hs, -, -⟩
  · rw [view_afterSend_single hs hne] at huc'
    have htouch : ∀ {v : Option UserConversation} {f : UserConversation → Int}
        {new : UserConversation}, new.updatedAt = m.sendTime → m.sendTime ≤ ((v.map fun uc ↦
          { uc with updatedAt := max uc.updatedAt m.sendTime, readSeq := f uc }).getD
            new).updatedAt := by
      intro v f new hnew
      cases v with
      | none => exact hnew.ge
      | some uc => exact le_max_right _ _
    split at huc'
    · next ho =>
      cases huc'
      exact .touched rfl ho.2 (htouch rfl)
    · split at huc'
      · next ho =>
        cases huc'
        exact .touched rfl ho.2 (htouch rfl)
      · next hsender hrecv =>
        -- a view of this chat would belong to one of the two
        have hc : c ≠ inp.conversation := by
          intro hc
          rcases hparty inp m rfl hs hc (by rw [huc']; rfl) with ho | ho
          · exact hsender ⟨ho, hc⟩
          · exact hrecv ⟨ho, hc⟩
        exact .kept huc' rfl (by rw [maxSeq_afterSend, if_neg hc]) (le_refl _)
  · rw [view_afterSend_group (by rw [hs]; decide)] at huc'
    obtain ⟨uc, huc, rfl⟩ := map_eq_some_iff.1 huc'
    have hok := (hinv.views o c).ok uc huc
    by_cases hc : c = inp.conversation
    · by_cases hopen : uc.maxSeq = 0
      · refine .touched rfl hc ?_
        simp only [hc, hopen, and_self, if_true]
        exact le_max_right _ _
      -- a frozen view is not touched and shows no more than before
      · have hpos : 0 < uc.maxSeq := by
          have := hok.max_nonneg
          omega
        refine .kept huc rfl ?_ (by simp [hopen])
        have hle : d.maxSeq c ≤ (d.afterSend inp m now).maxSeq c := by
          rw [maxSeq_afterSend, if_pos hc, hseq, hc]
          omega
        rw [visibleMax_of_frozen hpos hok.max_le]
        exact visibleMax_of_frozen hpos (hok.max_le.trans hle)
    · refine .kept huc rfl ?_ (by simp [hc])
      rw [maxSeq_afterSend, if_neg hc]
      rfl

/-- **Where the row of a view comes from**, whatever the action. -/
theorem Change.viewTime (hinv : Inv cfg d) (h : Change cfg d a d') (hparty : OnlyParties d a o c)
    {uc' : UserConversation} (huc' : d'.view o c = some uc') :
    ViewTime d a o c (d'.maxSeq c) uc' := by
  cases h with
  | send hadm hm _ => exact viewTime_send hinv hadm (by rw [hm, seq_place]) hparty huc'
  | create hg _ _ _ _ hviews =>
    rw [maxSeq_afterCreate]
    rw [view_afterCreate hviews] at huc'
    split at huc'
    · next ho =>
      cases huc'
      refine .empty ?_
      rw [ho.1, visibleMax_of_open rfl, hinv.maxSeq_of_fresh hg]
      exact Int.zero_lt_one
    · exact .kept huc' rfl rfl (le_refl _)
  | @join g u now _ _ _ =>
    rw [maxSeq_afterJoin]
    rw [view_afterJoin] at huc'
    split at huc'
    · next ho =>
      cases huc'
      refine .empty ?_
      rw [ho.2]
      cases d.view o (Conv.group g) <;> simp [Conv.visibleMax]
    · exact .kept huc' rfl rfl (le_refl _)
  | @leave g u now _ _ _ hm =>
    rw [maxSeq_afterLeave]
    rw [view_afterLeave] at huc'
    split at huc'
    · next ho =>
      obtain ⟨rfl, rfl⟩ := ho
      split at huc'
      · cases huc'
      · next hn =>
        obtain ⟨uc, huc, rfl⟩ := map_eq_some_iff.1 huc'
        -- a member's view is open, and is frozen where the conversation stands
        have hopen := ((hinv.views o (group g)).open_iff uc huc).2 (active_group.2 hm)
        have hnn := (hinv.views o (group g)).nonneg
        refine .kept huc rfl ?_ (le_refl _)
        rw [visibleMax_of_open hopen]
        exact visibleMax_of_frozen (lt_of_le_of_ne hnn (Ne.symm hn)) (le_refl _)
    · exact .kept huc' rfl rfl (le_refl _)
  | read =>
    rw [show view _ o c = _ from get_advanceReadSeq ..] at huc'
    obtain ⟨uc, huc, rfl⟩ := map_eq_some_iff.1 huc'
    split <;> exact .kept huc rfl rfl (le_refl _)
  | setOpt =>
    rw [show view _ o c = _ from get_setUserConversationOpt ..] at huc'
    obtain ⟨uc, huc, rfl⟩ := map_eq_some_iff.1 huc'
    split <;> exact .kept huc rfl rfl (le_refl _)
  | outside henv =>
    rw [view, henv.same.userConversations] at huc'
    exact .kept huc' rfl (by rw [maxSeq_eq_of_conversations henv.same.conversations]) (le_refl _)

/-- **Every action keeps views up to date.** -/
theorem Change.dated (hinv : Inv cfg d) (h : Change cfg d a d') (hclock : Clock d)
    (hparty : OnlyParties d a o c) (hd : d.Dated o c) : d'.Dated o c := by
  intro uc' m huc' hmin hm
  cases h.viewTime hinv hparty huc' with
  | empty hempty => exact absurd hmin (not_le.2 hempty)
  | @kept uc huc hmin' hmax htime =>
    rw [hmax] at hm hmin
    rcases h.message_cases hm with hold | ⟨inp, -, -, hseq⟩
    · exact (hd uc m huc (by rwa [hmin']) hold).trans htime
    · have := visibleMax_le uc (d.maxSeq c)
      omega
  | @touched inp m' ha hc htime =>
    subst ha hc
    -- no message of the conversation is later than the one that has just been sent
    obtain ⟨cv, hcv, hle⟩ := (h.clock hinv hclock).le_conversation _ _ m hm
    obtain ⟨-, cv', hcv', hlast⟩ := h.sendTime
    obtain rfl := some.inj (hcv.symm.trans hcv')
    exact (hle.trans hlast.le).trans htime

/-! ### The parties of a single chat -/

/-- Only the two users a single chat is named after have a view of it. -/
def Db.Parties (d : Db) : Prop :=
  ∀ o x y, ':' ∉ x.toList → ':' ∉ y.toList → (d.view o (Conv.single x y)).isSome → o = x ∨ o = y

/-- A sender whose id does not contain the separator reaches no other chat's views. -/
theorem Db.Parties.only (hd : d.Parties) (h : Change cfg d a d')
    (hsender : ∀ inp m, a = .send inp m → ':' ∉ inp.senderId.toList) : OnlyParties d a o c := by
  rintro inp m rfl hs rfl hv
  cases h with
  | send hadm _ _ =>
    rcases hadm with ⟨-, -, hrecv⟩ | ⟨hg, -⟩
    · rw [SendInput.conversation_of_single hs] at hv
      exact hd o _ _ (hsender inp m rfl) hrecv hv
    · rw [hs] at hg
      cases hg

theorem Db.Parties.empty (users : Table User String User.keys) : (Db.empty users).Parties := by
  intro o x y _ _ h
  simp [Db.empty, Db.view] at h

/-- **Every action keeps single chats apart.** -/
theorem Change.parties (h : Change cfg d a d') (hd : d.Parties) : d'.Parties := by
  intro o x y hx hy hv
  have hne : ∀ {g}, single x y ≠ group g := single_ne_group x y _
  cases h with
  | @send inp _ _ m hadm _ _ =>
    rcases hadm with ⟨hs, hrs, hrecv⟩ | ⟨hs, -, -⟩
    · rw [view_afterSend_single hs hrs, SendInput.conversation_of_single hs] at hv
      split at hv
      · next ho =>
        rcases single_eq_single hx hy ho.2 with ⟨rfl, rfl⟩ | ⟨rfl, rfl⟩
        · exact .inl ho.1
        · exact .inr ho.1
      · split at hv
        · next ho =>
          rcases single_eq_single hx hy ho.2 with ⟨rfl, rfl⟩ | ⟨rfl, rfl⟩
          · exact .inr ho.1
          · exact .inl ho.1
        · exact hd o x y hx hy hv
    · rw [view_afterSend_group (by rw [hs]; decide), isSome_map] at hv
      exact hd o x y hx hy hv
  | create _ _ _ _ _ hviews =>
    rw [view_afterCreate hviews, if_neg fun ho ↦ hne ho.1] at hv
    exact hd o x y hx hy hv
  | join =>
    rw [view_afterJoin, if_neg fun ho ↦ hne ho.2] at hv
    exact hd o x y hx hy hv
  | leave =>
    rw [view_afterLeave, if_neg fun ho ↦ hne ho.2] at hv
    exact hd o x y hx hy hv
  | read =>
    rw [show view _ o _ = _ from get_advanceReadSeq .., isSome_map] at hv
    exact hd o x y hx hy hv
  | setOpt =>
    rw [show view _ o _ = _ from get_setUserConversationOpt .., isSome_map] at hv
    exact hd o x y hx hy hv
  | outside henv =>
    rw [view, henv.same.userConversations] at hv
    exact hd o x y hx hy hv

end Nexo
