import Nexo.Guarantees.Message
import Mathlib.Data.Int.Interval

/-!
# What holds of read cursors

`MarkRead` reads a row in one statement and advances the cursor in another, and takes no lock.
Whatever is committed in between, the cursor stays within what its owner may see, never moves back,
and the unread count is the number of messages beyond it (`read_cursor`).
-/

namespace Nexo

open Relational Message List

variable {cfg : Config} {users : Table User String User.keys}

/-! ### The cursor never moves back -/

/-- The read cursor of a view, zero without one. -/
def Db.readSeq (d : Db) (o c : String) : Int := ((d.view o c).map (·.readSeq)).getD 0

theorem readSeq_step {d : Db} {a : Action} {d' : Db} (hinv : Inv cfg d) (h : Change cfg d a d')
    (o c : String) : d.readSeq o c ≤ d'.readSeq o c := by
  have hstep := h.viewStep hinv o c
  have hview := hinv.views o c
  have hok' := (hstep.inv hview).ok
  rw [Db.readSeq, Db.readSeq]
  rcases hv : d.view o c with - | uc <;> rcases hv' : d'.view o c with - | uc'
  · exact Int.le_refl _
  · have hread := (hok' uc' hv').min_le_read
    have hone := (hok' uc' hv').one_le_min
    simp only [Option.map_none, Option.getD_none, Option.map_some, Option.getD_some]
    omega
  -- a row is dropped only while there is nothing to read
  · have hread := (hview.ok uc hv).read_le
    have hmax := Conv.visibleMax_le uc (d.maxSeq c)
    have hle := hstep.le
    have hzero := hstep.eq_zero_of_drop hv hv'
    simp only [Option.map_some, Option.getD_some, Option.map_none, Option.getD_none]
    omega
  · exact hstep.readSeq_mono hview hv hv'

theorem readSeq_mono {H H' : History cfg users} (hv : (spec cfg users).Valid H') (hs : H <:+ H')
    (o c : String) : (Trace.db H).readSeq o c ≤ (Trace.db H').readSeq o c :=
  preserved (R := fun d d' ↦ d.readSeq o c ≤ d'.readSeq o c) (fun _ ↦ Int.le_refl _)
    (fun h h' ↦ h.trans h') (fun hinv hc ↦ readSeq_step hinv hc o c) hv hs

/-! ### The unread count -/

/-- The stored messages in the visible range of a row and beyond its cursor. -/
def Db.unreadMessages (d : Db) (row : UserConversationRow) : List Message :=
  d.messages.rows.filter fun m ↦ m.conversationId = row.conversationId && row.minSeq ≤ m.seq &&
    m.seq ≤ Conv.visibleMax row.toUserConversation row.convMaxSeq && row.readSeq < m.seq

theorem length_unreadMessages {d : Db} (hinv : Inv cfg d) {o c : String} {row : UserConversationRow}
    (hrow : d.userConversationRow o c = some row) :
    ((d.unreadMessages row).length : Int) =
      Conv.visibleMax row.toUserConversation row.convMaxSeq - row.readSeq := by
  obtain ⟨hview, hmax⟩ := view_of_row hrow
  have hconv : row.conversationId = c := (ownerKey_eq_of_get hview).2
  have hok := (hinv.views o c).ok _ hview
  have hle := Conv.visibleMax_le row.toUserConversation row.convMaxSeq
  have hmin := hok.min_le_read
  have hone := hok.one_le_min
  have hread := hok.read_le
  rw [hmax] at hread
  -- the sequence numbers beyond the cursor are an interval, and none comes twice
  have hnodup : ((d.unreadMessages row).map (·.seq)).Nodup := by
    refine (nodup_seqs d c).sublist (List.Sublist.map _ ?_)
    refine monotone_filter_right _ fun m hm ↦ ?_
    simp only [Bool.and_eq_true, decide_eq_true_eq] at hm
    simp [hm, hconv]
  have hset : ((d.unreadMessages row).map (·.seq)).toFinset =
      Finset.Ioc row.readSeq (Conv.visibleMax row.toUserConversation row.convMaxSeq) := by
    ext s
    have hseqs := hinv.seqs c s
    rw [← mem_seqs, Db.seqs, mem_map] at hseqs
    simp only [mem_toFinset, mem_map, Db.unreadMessages, mem_filter, Finset.mem_Ioc,
      Bool.and_eq_true, decide_eq_true_eq, hconv]
    constructor
    · rintro ⟨m, ⟨-, ⟨-, hm⟩, hlt⟩, rfl⟩
      exact ⟨hlt, hm⟩
    · rintro ⟨hlt, hs⟩
      obtain ⟨m, hm, rfl⟩ := hseqs.2 (by omega)
      simp only [mem_filter, decide_eq_true_eq] at hm
      exact ⟨m, ⟨hm.1, ⟨⟨hm.2, by omega⟩, hs⟩, hlt⟩, rfl⟩
  have hcard := congrArg Finset.card hset
  rw [toFinset_card_of_nodup hnodup, length_map, Int.card_Ioc] at hcard
  omega

/-! ### The result -/

/-- What a `MarkRead` returned or broadcast was allowed by the row it read. -/
theorem markRead_bounded {H : History cfg users} {pid : ℕ} {u conn c : String} {n : Int}
    (hv : (spec cfg users).Valid H) (hstart : Started H pid (.markRead u conn c n)) {k : Mark}
    {v : Int} (hk : k ∈ marks pid H)
    (hval : k = .returned (.read (.ok v)) ∨ ∃ ev, k = .cursor ev ∧ ev.readSeq = v) :
    ∃ row H₀, SawAt H pid (.getUserConversationRow u c) (.ok row) H₀ ∧
      v ≤ Conv.visibleMax row.toUserConversation row.convMaxSeq := by
  obtain ⟨ev, d, H₀, hs, hmark, hdoes⟩ := does_of_mark hv hstart hk
  have hs₀ := (suffix_cons _ _).trans hs
  cases hdoes with
  | quiet hq =>
    rw [mark_of_quiet hq] at hmark
    cases hmark
  | readWrite =>
    cases hmark
    simp at hval
  | @readNotify _ _ _ _ _ row H₁ _ hrow htarget =>
    cases hmark
    obtain ⟨rfl⟩ : _ = v := by simpa using hval
    exact ⟨row, H₁, hrow.mono hs₀, htarget⟩
  | @readOk _ _ _ _ _ row H₁ hrow hvalue =>
    cases hmark
    obtain ⟨rfl⟩ : _ = v := by simpa using hval
    exact ⟨row, H₁, hrow.mono hs₀, hvalue⟩
  | readError =>
    cases hmark
    simp at hval
  | memberCommit _ hreq | memberChanged _ hreq | memberOk _ hreq => cases hreq
  | memberError _ hv => cases hv

/-- **Read cursors without a lock.** In every committed state every cursor lies between the row
before its owner's range and the last message its owner may see; between any two moments at which a
row exists it has not moved back; what `MarkRead` returns or broadcasts is within what the row it
read allows; and the unread count of the list item is the number of stored messages in the visible
range and beyond the cursor. -/
theorem read_cursor {w : World (system cfg users)} (h : Reachable (system cfg users) w) :
    (∀ uc ∈ w.db.userConversations.rows, uc.minSeq - 1 ≤ uc.readSeq ∧
      uc.readSeq ≤ Conv.visibleMax uc (w.db.maxSeq uc.conversationId)) ∧
    (∀ (H H' : History cfg users) o c uc uc', H <:+ H' → H' <:+ w.trace →
      (Trace.db H).view o c = some uc → (Trace.db H').view o c = some uc' →
      uc.readSeq ≤ uc'.readSeq) ∧
    (∀ pid u conn c n, Started w.trace pid (.markRead u conn c n) → ∀ v,
      (Returned w.trace pid (.read (.ok v)) ∨
        ∃ ev, .cursor ev ∈ marks pid w.trace ∧ ev.readSeq = v) →
      ∃ row H₀, SawAt w.trace pid (.getUserConversationRow u c) (.ok row) H₀ ∧
        (Trace.db H₀).userConversationRow u c = some row ∧
        v ≤ Conv.visibleMax row.toUserConversation row.convMaxSeq) ∧
    (∀ o c row, w.db.userConversationRow o c = some row →
      (Conversation.itemFromRow row).unread = (w.db.unreadMessages row).length) := by
  have hv := valid_of_reachable h
  have hinv : Inv cfg w.db := inv_of_valid hv
  refine ⟨fun uc huc ↦ ?_, ?_, ?_, fun o c row hrow ↦ ?_⟩
  · have hview := view_of_mem huc
    have hok := (hinv.views _ _).ok uc hview
    exact ⟨hok.min_le_read, hok.read_le⟩
  · intro H H' o c uc uc' hs hs' huc huc'
    have hmono := readSeq_mono (hv.of_suffix hs') hs o c
    rwa [Db.readSeq, Db.readSeq, huc, huc'] at hmono
  · rintro pid u conn c n hstart v hval
    have hbound : ∃ row H₀, SawAt w.trace pid (.getUserConversationRow u c) (.ok row) H₀ ∧
        v ≤ Conv.visibleMax row.toUserConversation row.convMaxSeq := by
      rcases hval with hret | ⟨ev, hev, hseq⟩
      · exact markRead_bounded hv hstart hret (.inl rfl)
      · exact markRead_bounded hv hstart hev (.inr ⟨ev, rfl, hseq⟩)
    obtain ⟨row, H₀, hrow, hle⟩ := hbound
    exact ⟨row, H₀, hrow, hrow.row hv, hle⟩
  · have hlen := length_unreadMessages hinv hrow
    simp only [Conversation.itemFromRow]
    omega

theorem read_cursor_demo :
    Started Demo.world.trace 7 (.markRead "u___2" "" "sg_g" 9) ∧
    (∀ v, Returned Demo.world.trace 7 (.read (.ok v)) → ∃ row H₀,
      SawAt Demo.world.trace 7 (.getUserConversationRow "u___2" "sg_g") (.ok row) H₀ ∧
        v ≤ Conv.visibleMax row.toUserConversation row.convMaxSeq) ∧
    ∃ row, Demo.world.db.userConversationRow "u___1" "sg_g" = some row ∧
      (Demo.world.db.unreadMessages row).length = 1 := by
  have hstart : Started Demo.world.trace 7 (.markRead "u___2" "" "sg_g" 9) := by decide +kernel
  obtain ⟨-, -, hmark, hunread⟩ := read_cursor Demo.reachable
  refine ⟨hstart, fun v hv ↦ ?_, ?_⟩
  · obtain ⟨row, H₀, hsaw, -, hle⟩ := hmark 7 _ _ _ _ hstart v (.inl hv)
    exact ⟨row, H₀, hsaw, hle⟩
  · have hitem : (Demo.world.db.userConversationRow "u___1" "sg_g").map
        (fun row ↦ (Conversation.itemFromRow row).unread) = some 1 := by decide +kernel
    obtain ⟨row, hrow, hone⟩ := Option.map_eq_some_iff.1 hitem
    refine ⟨row, hrow, ?_⟩
    have hlen := hunread "u___1" "sg_g" row hrow
    omega

end Nexo
