import Nexo.Guarantees.Message
import Nexo.Ledger.Clock

/-!
# What holds of times

Every call reads a clock before it takes the conversation lock, and nothing is assumed about what it
reads. All the same, in the order of the commits: the time of a conversation never goes back,
message times follow sequence numbers, no send lowers the sort key of a view, and a view is never
earlier than the last message its owner may see (`time_monotone`).

The last of these needs senders without the separator of conversation ids, which `Send` does not
check: `"u___1:u___2"` writing to `u___3` and `"u___2:u___3"` writing to `u___1` share a
conversation, and a message between the second two does not touch the view of `u___3`
(`shared_id_keeps_old_time`).
-/

namespace Nexo

open Relational Message

variable {cfg : Config} {users : Table User String User.keys} {H : History cfg users}

/-! ### Along a history -/

section

variable (h : (spec cfg users).Valid H)
include h

theorem clock_of_valid : Clock (Trace.db H) :=
  holds_of_valid (Clock.empty users) (fun hinv hc hclock ↦ hc.clock hinv hclock) h

theorem parties_of_valid : (Trace.db H).Parties :=
  holds_of_valid (Db.Parties.empty users) (fun _ hc hd ↦ hc.parties hd) h

theorem dated_of_valid {o c : String}
    (hc : (∃ g, c = Conv.group g) ∨ PlainSenders H) : (Trace.db H).Dated o c := by
  induction h with
  | nil =>
    intro uc m huc
    simp [Trace.db, Db.empty, Db.view] at huc
  | @cons H e hv he ih =>
    have hd := ih (hc.imp_right fun hplain ↦ hplain.of_suffix (List.suffix_cons _ _))
    rcases Allowed.action he with heq | ⟨a, hchange, hsend⟩
    · rwa [Trace.db_cons, heq]
    refine hchange.dated (inv_of_valid hv) (clock_of_valid hv) ?_ hd
    rcases hc with ⟨g, rfl⟩ | hplain
    · intro inp m _ hs hconv
      rw [SendInput.conversation_of_single hs] at hconv
      exact absurd hconv.symm (Conv.single_ne_group _ _ _)
    · refine (parties_of_valid hv).only hchange ?_
      rintro inp m rfl
      obtain ⟨pid, inp₀, -, -, hstart, rfl, -⟩ := hsend inp m rfl
      simpa using (hplain.of_suffix (List.suffix_cons _ _)) pid inp₀ hstart

end

/-- No entry of a send lowers the time of a view. -/
theorem view_mono_of_send {pid : ℕ} {inp : SendInput} (hv : (spec cfg users).Valid H)
    (hstart : Started H pid (.send inp)) {e : Entry (system cfg users)} {H₀ : History cfg users}
    (hs : e :: H₀ <:+ H) (hwho : e.who = some pid) {o c : String} {uc : UserConversation}
    (huc : (Trace.db H₀).view o c = some uc) :
    ∃ uc', e.db.view o c = some uc' ∧ uc.updatedAt ≤ uc'.updatedAt := by
  by_cases hev : e.event = .commit
  swap
  · rw [unchanged hv rfl hstart hs hwho hev]
    exact ⟨uc, huc, le_refl _⟩
  obtain ⟨who, ev, d⟩ := e
  obtain rfl : who = some pid := hwho
  obtain rfl : ev = .commit := hev
  rcases (hv.of_suffix hs).head with ⟨_, hev, -⟩ | ⟨req, hreq, hdoes⟩
  · cases hev
  obtain rfl := started_unique hv hstart (hreq.mono ((List.suffix_cons _ _).trans hs))
  cases hdoes with
  | quiet hq => cases hq
  | sendCommit _ hchange _ _ => exact hchange.view_mono huc
  | memberCommit _ hmember _ => cases hmember

/-! ### The result -/

/-- **Times under arbitrary clocks.** In the order of the commits: the time of a conversation never
goes back; message times do not decrease with the sequence number; no send lowers the time of a
view; and a view that shows something is no earlier than the last message it shows. For the last,
senders must not contain the separator of conversation ids, or two single chats may share one id;
for groups nothing is needed. -/
theorem time_monotone {w : World (system cfg users)} (h : Reachable (system cfg users) w) :
    (∀ (H H' : History cfg users) c cv, H <:+ H' → H' <:+ w.trace →
      (Trace.db H).conversations.get c = some cv →
      ∃ cv', (Trace.db H').conversations.get c = some cv' ∧ cv.updatedAt ≤ cv'.updatedAt) ∧
    (∀ m ∈ w.db.messages.rows, ∀ m' ∈ w.db.messages.rows, m.conversationId = m'.conversationId →
      m.seq ≤ m'.seq → m.sendTime ≤ m'.sendTime) ∧
    (∀ pid inp, Started w.trace pid (.send inp) → ∀ e (H₀ : History cfg users),
      e :: H₀ <:+ w.trace → e.who = some pid → ∀ o c uc, (Trace.db H₀).view o c = some uc →
      ∃ uc', e.db.view o c = some uc' ∧ uc.updatedAt ≤ uc'.updatedAt) ∧
    (∀ uc ∈ w.db.userConversations.rows,
      (∃ g, uc.conversationId = Conv.group g) ∨ PlainSenders w.trace →
      uc.minSeq ≤ Conv.visibleMax uc (w.db.maxSeq uc.conversationId) →
      ∃ m ∈ w.db.messages.rows, m.conversationId = uc.conversationId ∧
        m.seq = Conv.visibleMax uc (w.db.maxSeq uc.conversationId) ∧
        m.sendTime ≤ uc.updatedAt) := by
  have hv := valid_of_reachable h
  have hinv : Inv cfg w.db := inv_of_valid hv
  refine ⟨?_, ?_, ?_, ?_⟩
  · intro H H' c cv hs hs' hcv
    exact preserved (R := fun d d' ↦ ∀ cv, d.conversations.get c = some cv →
        ∃ cv', d'.conversations.get c = some cv' ∧ cv.updatedAt ≤ cv'.updatedAt)
      (fun _ cv hcv ↦ ⟨cv, hcv, le_refl _⟩)
      (fun h h' cv hcv ↦ by
        obtain ⟨cv', hcv', hle⟩ := h cv hcv
        obtain ⟨cv'', hcv'', hle'⟩ := h' cv' hcv'
        exact ⟨cv'', hcv'', hle.trans hle'⟩)
      (fun _ hc cv hcv ↦ hc.conversation_mono hcv) (hv.of_suffix hs') hs cv hcv
  · intro m hm m' hm' hconv hseq
    rw [mem_rows_iff] at hm hm'
    rw [← hconv] at hm'
    exact (clock_of_valid hv).sorted _ _ _ m m' hseq hm hm'
  · intro pid inp hstart e H₀ hs hwho o c uc huc
    exact view_mono_of_send hv hstart hs hwho huc
  · intro uc huc hc hmin
    have hview := view_of_mem huc
    have hone := ((hinv.views _ _).ok uc hview).one_le_min
    have hstored := (hinv.seqs uc.conversationId _).2
      ⟨hone.trans hmin, Conv.visibleMax_le uc (w.db.maxSeq uc.conversationId)⟩
    obtain ⟨m, hm⟩ := Option.isSome_iff_exists.1 hstored
    obtain ⟨hconv, hseq⟩ := seqKey_eq_of_get hm
    exact ⟨m, Table.mem_of_get hm, hconv, hseq, dated_of_valid hv hc uc m hview hmin hm⟩

theorem time_monotone_demo : PlainSenders Demo.world.trace ∧
    ∃ uc ∈ Demo.world.db.userConversations.rows,
      uc.minSeq ≤ Conv.visibleMax uc (Demo.world.db.maxSeq uc.conversationId) ∧
      ∃ m ∈ Demo.world.db.messages.rows, m.conversationId = uc.conversationId ∧
        m.seq = Conv.visibleMax uc (Demo.world.db.maxSeq uc.conversationId) ∧
        m.sendTime ≤ uc.updatedAt := by
  have hplain : PlainSenders Demo.world.trace := plainSenders_of_all (by decide +kernel)
  have hrow : (Demo.world.db.userConversations.rows.any fun uc ↦
      decide (uc.minSeq ≤ Conv.visibleMax uc (Demo.world.db.maxSeq uc.conversationId))) = true := by
    decide +kernel
  obtain ⟨uc, huc, hmin⟩ := List.any_eq_true.1 hrow
  have hmin := of_decide_eq_true hmin
  exact ⟨hplain, uc, huc, hmin, (time_monotone Demo.reachable).2.2.2 uc huc (.inr hplain) hmin⟩

namespace TimeDemo

def accounts : Table User String User.keys := (Table.empty.insert ⟨"u___1"⟩).insert ⟨"u___3"⟩

def message (sender recv : String) : SendInput :=
  { Demo.message sender "k" with sessionType := conversationSingle, recvId := recv, groupId := "" }

/-- Two chats with one conversation id, at 10 and at 50. -/
def calls : List (Request × ∀ e : Ext, e.Res) :=
  [(.send (message "u___1:u___2" "u___3"), answers 10 "m1"),
    (.send (message "u___2:u___3" "u___1"), answers 50 "m2")]

end TimeDemo

open TimeDemo in
/-- **A sender with the separator in its id**: the view of `u___3` shows a message of 50 and keeps
10. -/
theorem shared_id_keeps_old_time : ∃ w : World (system Demo.config accounts),
    Reachable (system Demo.config accounts) w ∧
    ¬ ∀ uc ∈ w.db.userConversations.rows,
      uc.minSeq ≤ Conv.visibleMax uc (w.db.maxSeq uc.conversationId) →
      ∃ m ∈ w.db.messages.rows, m.conversationId = uc.conversationId ∧
        m.seq = Conv.visibleMax uc (w.db.maxSeq uc.conversationId) ∧ m.sendTime ≤ uc.updatedAt := by
  have hrun : (serial (system Demo.config accounts) calls 0 []).map (fun H : History _ _ ↦
      (Trace.db H).userConversations.rows.all fun uc ↦
        uc.minSeq ≤ Conv.visibleMax uc ((Trace.db H).maxSeq uc.conversationId) →
        ∃ m ∈ (Trace.db H).messages.rows, m.conversationId = uc.conversationId ∧
          m.seq = Conv.visibleMax uc ((Trace.db H).maxSeq uc.conversationId) ∧
          m.sendTime ≤ uc.updatedAt) = some false := by
    decide +kernel
  obtain ⟨H, hH, hlate⟩ := Option.map_eq_some_iff.1 hrun
  refine ⟨_, reachable_of_serial reachable_finished_zero hH, fun hdated ↦ ?_⟩
  rw [List.all_eq_false] at hlate
  obtain ⟨uc, huc, hnot⟩ := hlate
  exact hnot (decide_eq_true (hdated uc huc))

end Nexo
