import Nexo.Guarantees.Message
import Mathlib.Order.Bounds.Defs

/-!
# What holds of groups

For every interleaving of every set of calls, with failures anywhere:

* what a user may see of a group is exactly what was sent during the user's latest stint as a member
  (`visible_iff_latestStint`), and everything that reads a view decodes it the same way;
* members and open views are the same, every group has its owner, no group outgrows its limit, and
  whoever wrote to a group was a member when the message was committed (`group_structure`).
-/

namespace Nexo

open Relational Message List

variable {cfg : Config} {users : Table User String User.keys}

/-! ### The latest stint -/

section Stint

variable {H : History cfg users} {g u : String} {s : Int}

/-- The group has a message with this sequence number. -/
def Db.Stored (d : Db) (g : String) (s : Int) : Prop :=
  (d.messages.get (.seq (Conv.group g) s)).isSome

/-- The user becomes a member with this entry. -/
def Enters (g u : String) (e : Entry (system cfg users)) (H : History cfg users) : Prop :=
  (Trace.db H).isMember g u = false ∧ e.db.isMember g u = true

/-- The message was committed while the user was a member, and the user has not become a member
again since: the moment belongs to the user's latest stint. -/
def InLatestStint (H : History cfg users) (g u : String) (s : Int) : Prop :=
  ∃ e H₀, e :: H₀ <:+ H ∧ ¬ (Trace.db H₀).Stored g s ∧ e.db.Stored g s ∧ e.db.isMember g u = true ∧
    ∀ e' H₁, e' :: H₁ <:+ H → e :: H₀ <:+ H₁ → ¬ Enters g u e' H₁

theorem stored_later {H H' : History cfg users} (hv : (spec cfg users).Valid H') (hs : H <:+ H')
    (h : (Trace.db H).Stored g s) : (Trace.db H').Stored g s := by
  obtain ⟨m, hm⟩ := Option.isSome_iff_exists.1 h
  rw [Db.Stored, messages_persist hv hs hm]
  rfl

/-- A message of the last entry: whoever is a member then. -/
theorem inLatestStint_new {e : Entry (system cfg users)} (hv : (spec cfg users).Valid (e :: H))
    (hold : ¬ (Trace.db H).Stored g s) (hnew : e.db.Stored g s) :
    InLatestStint (e :: H) g u s ↔ e.db.isMember g u = true := by
  constructor
  · rintro ⟨e', H₀, hs, -, hstored, hmem, -⟩
    rcases suffix_cons_iff.1 hs with heq | hs
    · obtain ⟨rfl, rfl⟩ := cons.inj heq
      exact hmem
    · exact absurd (stored_later (H := e' :: H₀) hv.tail hs hstored) hold
  · intro hmem
    refine ⟨e, H, suffix_refl _, hold, hnew, hmem, fun e' H₁ hs hlater ↦ ?_⟩
    have hlen := hs.length_le
    have hlen' := hlater.length_le
    simp only [length_cons] at hlen hlen'
    omega

/-- An older message: the same as before, unless the user enters. -/
theorem inLatestStint_old {e : Entry (system cfg users)} (hold : (Trace.db H).Stored g s) :
    InLatestStint (e :: H) g u s ↔ InLatestStint H g u s ∧ ¬ Enters g u e H := by
  constructor
  · rintro ⟨e', H₀, hs, hnot, hstored, hmem, hlast⟩
    rcases suffix_cons_iff.1 hs with heq | hs'
    · obtain ⟨rfl, rfl⟩ := cons.inj heq
      exact absurd hold hnot
    · refine ⟨⟨e', H₀, hs', hnot, hstored, hmem, fun e'' H₁ hs₁ hl ↦ ?_⟩, ?_⟩
      · exact hlast e'' H₁ (hs₁.trans (suffix_cons _ _)) hl
      · exact hlast e H (suffix_refl _) hs'
  · rintro ⟨⟨e', H₀, hs, hnot, hstored, hmem, hlast⟩, henter⟩
    refine ⟨e', H₀, hs.trans (suffix_cons _ _), hnot, hstored, hmem, fun e'' H₁ hs₁ hl ↦ ?_⟩
    rcases suffix_cons_iff.1 hs₁ with heq | hs₁
    · obtain ⟨rfl, rfl⟩ := cons.inj heq
      exact henter
    · exact hlast e'' H₁ hs₁ hl

/-- **Visibility is membership at the time**, for the latest stint. -/
theorem visible_iff_inLatestStint (hv : (spec cfg users).Valid H) (hs : (Trace.db H).Stored g s) :
    Visible ((Trace.db H).maxSeq (Conv.group g)) ((Trace.db H).view u (Conv.group g)) s ↔
      InLatestStint H g u s := by
  induction hv with
  | nil => simp [Db.Stored, Trace.db, Db.empty] at hs
  | @cons H e hv he ih =>
    have hv' := Spec.Valid.cons hv he
    have hinv := inv_of_valid hv
    have hinv' : Inv cfg e.db := inv_of_valid hv'
    obtain ⟨hstep, hcount⟩ := viewStep_of_valid hv' u (Conv.group g)
    have hpresent : (Trace.db H).Active u (Conv.group g) →
        ((Trace.db H).view u (Conv.group g)).isSome :=
      fun ha ↦ hinv.present g u (Db.active_group.1 ha)
    have hview := hinv.views u (Conv.group g)
    by_cases hold : (Trace.db H).Stored g s
    · obtain ⟨hs1, hsn⟩ := (hinv.seqs (Conv.group g) s).1 hold
      rw [Trace.db_cons, hstep.visible_old hview hpresent hs1 hsn, ih hold, inLatestStint_old hold,
        Db.active_group, Db.active_group]
      refine and_congr_right fun _ ↦ ?_
      simp only [Enters]
      cases (Trace.db H).isMember g u <;> cases e.db.isMember g u <;> simp
    · have hlt : ¬ (1 ≤ s ∧ s ≤ (Trace.db H).maxSeq (Conv.group g)) :=
        fun h ↦ hold ((hinv.seqs (Conv.group g) s).2 h)
      obtain ⟨hs1, hsn⟩ := (hinv'.seqs (Conv.group g) s).1 hs
      have hnew : e.db.maxSeq (Conv.group g) = (Trace.db H).maxSeq (Conv.group g) + 1 := by omega
      obtain rfl : s = e.db.maxSeq (Conv.group g) := by omega
      rw [Trace.db_cons, hstep.visible_new hview hpresent hnew, inLatestStint_new hv' hold hs,
        Db.active_group]

end Stint

/-! ### The readers of a view -/

section Readers

variable {d : Db} {u c : String} {s : Int} {uc : UserConversation}

/-- The clipped range of `Pull`. -/
theorem visibleRange_iff {n b e : Int} (hb : b ≤ s) (he : s ≤ e) :
    (Conv.visibleRange uc n b e).1 ≤ s ∧ s ≤ (Conv.visibleRange uc n b e).2 ↔
      uc.minSeq ≤ s ∧ s ≤ Conv.visibleMax uc n := by
  simp only [Conv.visibleRange]
  omega

/-- The predicate of `VisibleOwners`, for a sequence number in use. -/
theorem covers_iff {n : Int} (hok : ViewOk n uc) (hs : s ≤ n) :
    Db.covers uc s = true ↔ uc.minSeq ≤ s ∧ s ≤ Conv.visibleMax uc n := by
  have hnn := hok.max_nonneg
  have hle := hok.max_le
  simp only [Db.covers, Bool.and_eq_true, Bool.or_eq_true, decide_eq_true_eq]
  unfold Conv.visibleMax
  split <;> omega

/-- The row `GetUserConversationRow` finds for a view. -/
theorem exists_row_of_view (hinv : Inv cfg d) (huc : d.view u c = some uc) :
    ∃ row, d.userConversationRow u c = some row ∧ row.toUserConversation = uc ∧
      row.convMaxSeq = d.maxSeq c := by
  obtain ⟨cv, hcv⟩ := Option.isSome_iff_exists.1 (hinv.viewConv u c (by rw [huc]; rfl))
  refine ⟨{ uc with convMaxSeq := cv.maxSeq }, ?_, rfl, ?_⟩
  · rw [Db.userConversationRow, show d.userConversations.get (u, c) = some uc from huc,
      Option.bind_some, hcv]
    rfl
  · rw [Db.maxSeq, hcv]
    rfl

/-- Some row read for the user makes the condition true. -/
theorem row_visible_iff (hinv : Inv cfg d) {P : UserConversationRow → Prop}
    (hP : ∀ row, d.userConversationRow u c = some row →
      (P row ↔ row.minSeq ≤ s ∧ s ≤ Conv.visibleMax row.toUserConversation row.convMaxSeq)) :
    (∃ row, d.userConversationRow u c = some row ∧ P row) ↔ Visible (d.maxSeq c) (d.view u c) s := by
  constructor
  · rintro ⟨row, hrow, hp⟩
    obtain ⟨hview, hmax⟩ := view_of_row hrow
    rw [hmax]
    exact ⟨_, hview, (hP row hrow).1 hp⟩
  · rintro ⟨uc, huc, hvis⟩
    obtain ⟨row, hrow, rfl, hmax⟩ := exists_row_of_view hinv huc
    exact ⟨row, hrow, (hP row hrow).2 (by rwa [hmax])⟩

/-- The key of the last message is the greatest visible sequence number, if there is one. -/
theorem lastMessageKey_iff (hinv : Inv cfg d) {row : UserConversationRow}
    (hrow : d.userConversationRow u c = some row) {k : String × Int} :
    (Conversation.itemFromRow row).lastMessageKey = some k ↔
      k.1 = c ∧ IsGreatest {s | (d.messages.get (.seq c s)).isSome ∧
        Visible (d.maxSeq c) (d.view u c) s} k.2 := by
  obtain ⟨hview, hmax⟩ := view_of_row hrow
  have hok := (hinv.views u c).ok _ hview
  have hconv : row.conversationId = c := (ownerKey_eq_of_get hview).2
  have hle := Conv.visibleMax_le row.toUserConversation (d.maxSeq c)
  have hone := hok.one_le_min
  have hset : {s | (d.messages.get (.seq c s)).isSome ∧ Visible (d.maxSeq c) (d.view u c) s} =
      {s | row.minSeq ≤ s ∧ s ≤ Conv.visibleMax row.toUserConversation (d.maxSeq c)} := by
    ext s
    simp only [Set.mem_ofPred_eq, hinv.seqs, Visible, hview, Option.some.injEq, exists_eq_left']
    omega
  obtain ⟨k₁, k₂⟩ := k
  rw [hset, Conversation.Item.lastMessageKey]
  simp only [Conversation.itemFromRow, hconv, ← hmax]
  constructor
  · intro h
    split at h
    · cases h
    · next hlt =>
      cases h
      exact ⟨rfl, ⟨by omega, Int.le_refl _⟩, fun s hs ↦ hs.2⟩
  · rintro ⟨rfl, ⟨hmin, hk⟩, hgreatest⟩
    have hne := Int.le_trans hmin hk
    have htop := hgreatest ⟨hne, Int.le_refl _⟩
    rw [if_neg (Int.not_lt.2 hne)]
    exact congrArg some (Prod.ext rfl (Int.le_antisymm htop hk))

end Readers

/-! ### The results -/

/-- **Visibility is exactly the latest stint.** In every committed state, for every user and group:
a stored message is within what `Pull` serves to the user, and the user is among its
`VisibleOwners`, if and only if it was committed during the user's latest stint as a member; the
last message of the conversation's list item is the greatest of these; and a user who leaves while
there is no message keeps no row. -/
theorem visible_iff_latestStint {w : World (system cfg users)} (h : Reachable (system cfg users) w)
    (g u : String) :
    (∀ s, w.db.Stored g s →
      (∀ b e, b ≤ s → s ≤ e →
        ((∃ row, w.db.userConversationRow u (Conv.group g) = some row ∧
          (Conv.visibleRange row.toUserConversation row.convMaxSeq b e).1 ≤ s ∧
          s ≤ (Conv.visibleRange row.toUserConversation row.convMaxSeq b e).2) ↔
        InLatestStint w.trace g u s)) ∧
      (∀ owners, u ∈ owners →
        (u ∈ w.db.visibleOwners (Conv.group g) owners s ↔ InLatestStint w.trace g u s))) ∧
    (∀ row, w.db.userConversationRow u (Conv.group g) = some row → ∀ k,
      (Conversation.itemFromRow row).lastMessageKey = some k ↔ k.1 = Conv.group g ∧
        IsGreatest {s | w.db.Stored g s ∧ InLatestStint w.trace g u s} k.2) ∧
    (∀ e (H₀ : History cfg users), e :: H₀ <:+ w.trace → (Trace.db H₀).isMember g u = true →
      e.db.isMember g u = false → (Trace.db H₀).maxSeq (Conv.group g) = 0 →
      e.db.view u (Conv.group g) = none) := by
  have hv := valid_of_reachable h
  have hinv : Inv cfg w.db := inv_of_valid hv
  have hiff : ∀ {s}, w.db.Stored g s →
      (Visible (w.db.maxSeq (Conv.group g)) (w.db.view u (Conv.group g)) s ↔
        InLatestStint w.trace g u s) := fun hs ↦ visible_iff_inLatestStint hv hs
  refine ⟨fun s hs ↦ ⟨fun b e hb he ↦ ?_, fun owners hu ↦ ?_⟩, fun row hrow k ↦ ?_, ?_⟩
  · rw [← hiff hs]
    exact row_visible_iff hinv fun row _ ↦ visibleRange_iff hb he
  · rw [← hiff hs, Db.mem_visibleOwners]
    have hle := ((hinv.seqs _ s).1 hs).2
    have hok := (hinv.views u (Conv.group g)).ok
    constructor
    · rintro ⟨-, uc, huc, hcov⟩
      exact ⟨uc, huc, (covers_iff (hok uc huc) hle).1 hcov⟩
    · rintro ⟨uc, huc, hvis⟩
      exact ⟨hu, uc, huc, (covers_iff (hok uc huc) hle).2 hvis⟩
  · have hset : {s | w.db.Stored g s ∧ InLatestStint w.trace g u s} =
        {s | (w.db.messages.get (.seq (Conv.group g) s)).isSome ∧
          Visible (w.db.maxSeq (Conv.group g)) (w.db.view u (Conv.group g)) s} := by
      ext s
      exact and_congr_right fun hs ↦ (hiff hs).symm
    rw [hset]
    exact lastMessageKey_iff hinv hrow
  · intro e H₀ hs hmem hnot hzero
    have hv₀ := hv.of_suffix hs
    have hinv₀ : Inv cfg e.db := inv_of_valid hv₀
    obtain ⟨hstep, -⟩ := viewStep_of_valid hv₀ u (Conv.group g)
    have hn : e.db.maxSeq (Conv.group g) = 0 := by
      rw [hstep.eq_of_leave (Db.active_group.2 hmem) (by simp [Db.active_group, hnot]), hzero]
    rcases hview : e.db.view u (Conv.group g) with - | uc
    · rfl
    · have hok := (hinv₀.views u (Conv.group g)).ok uc hview
      have hopen := (hinv₀.views u (Conv.group g)).open_iff uc hview
      have hmax : uc.maxSeq = 0 := by
        have := hok.max_le
        have := hok.max_nonneg
        omega
      rw [hopen, Db.active_group, hnot] at hmax
      cases hmax

theorem visible_iff_latestStint_demo :
    Demo.world.db.Stored "g" 1 ∧ ¬ InLatestStint Demo.world.trace "g" "u___2" 1 ∧
    Demo.world.db.Stored "g" 3 ∧ InLatestStint Demo.world.trace "g" "u___2" 3 := by
  have hone : Demo.world.db.Stored "g" 1 := by
    unfold Db.Stored
    decide +kernel
  have hthree : Demo.world.db.Stored "g" 3 := by
    unfold Db.Stored
    decide +kernel
  have h := (visible_iff_latestStint Demo.reachable "g" "u___2").1
  refine ⟨hone, ?_, hthree, ?_⟩
  · rw [← (h 1 hone).2 ["u___2"] (by decide)]
    decide +kernel
  · rw [← (h 3 hthree).2 ["u___2"] (by decide)]
    decide +kernel

/-- **Group structure.** In every committed state: the members of a group are the owners of its open
views; the owner of a group is a member with the owner's role, and the only one; no group has more
members than the limit, however many joins race; and the sender of every message of a group was a
member in the state in which the message was committed. -/
theorem group_structure {w : World (system cfg users)} (h : Reachable (system cfg users) w) :
    (∀ g u, (∃ m, w.db.members.get (g, u) = some m) ↔
      ∃ uc, w.db.userConversations.get (u, Conv.group g) = some uc ∧ uc.maxSeq = 0) ∧
    (∀ g row, w.db.groups.get g = some row →
      (∃ m, w.db.members.get (g, row.ownerId) = some m ∧ m.role = roleOwner) ∧
      (∀ u m, w.db.members.get (g, u) = some m → m.role = roleOwner → u = row.ownerId) ∧
      (w.db.countGroupMembers g : Int) ≤ cfg.maxMembers) ∧
    (∀ g, ∀ m ∈ w.db.messages.rows, m.conversationId = Conv.group g →
      ∃ e H₀, e :: H₀ <:+ w.trace ∧ m ∉ (Trace.db H₀).messages.rows ∧ m ∈ e.db.messages.rows ∧
        (Trace.db H₀).isMember g m.senderId = true ∧ e.db.isMember g m.senderId = true) := by
  have hv := valid_of_reachable h
  have hinv : Inv cfg w.db := inv_of_valid hv
  refine ⟨fun g u ↦ ?_, fun g row hrow ↦ ⟨?_, ?_, ?_⟩, fun g m hm hconv ↦ ?_⟩
  · have hopen := (hinv.views u (Conv.group g)).open_iff
    rw [← Option.isSome_iff_exists]
    constructor
    · intro hmem
      obtain ⟨uc, huc⟩ := Option.isSome_iff_exists.1 (hinv.present g u hmem)
      exact ⟨uc, huc, (hopen uc huc).2 (Db.active_group.2 hmem)⟩
    · rintro ⟨uc, huc, hmax⟩
      exact Db.active_group.1 ((hopen uc huc).1 hmax)
  · obtain ⟨m, hm⟩ := Option.isSome_iff_exists.1 (hinv.roster.ownerMember g row hrow)
    exact ⟨m, hm, (hinv.roster.ownerRole g row hrow _ m hm).2 rfl⟩
  · exact fun u m hm hrole ↦ (hinv.roster.ownerRole g row hrow u m hm).1 hrole
  · exact hinv.roster.count g (by rw [hrow]; rfl)
  · obtain ⟨p, inp, hp, -⟩ := exists_committed hv hm
    obtain ⟨d, H₀, hs, hchange⟩ := hp
    exact ⟨_, H₀, hs, hchange.stores.1, hchange.stores.2, hchange.sender_isMember hconv⟩

theorem group_structure_demo :
    (∃ uc, Demo.world.db.userConversations.get ("u___2", Conv.group "g") = some uc ∧
      uc.maxSeq = 0) ∧
    ∃ row, Demo.world.db.groups.get "g" = some row ∧
      (Demo.world.db.countGroupMembers "g" : Int) ≤ Demo.config.maxMembers := by
  obtain ⟨hmembers, hgroups, -⟩ := group_structure Demo.reachable
  have hmem : (Demo.world.db.members.get ("g", "u___2")).isSome := by decide +kernel
  have hgroup : (Demo.world.db.groups.get "g").isSome := by decide +kernel
  obtain ⟨row, hrow⟩ := Option.isSome_iff_exists.1 hgroup
  exact ⟨(hmembers "g" "u___2").1 (Option.isSome_iff_exists.1 hmem), row, hrow,
    (hgroups "g" row hrow).2.2⟩

end Nexo
