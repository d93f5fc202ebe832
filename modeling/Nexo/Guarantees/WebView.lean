import Nexo.Guarantees.WebCursor

/-!
# The view of the web client keeps what its cursor claims

A round first drops the messages that its bounds leave out, and only then, range by range, brings
the cursors in line with the bounds. A message that was pushed while the bounds were on their way is
above them: it is dropped, and what makes that harmless is that the cursor is set back when the
round comes to the range, so that the next round fetches the message again. If the round ends before
that, or if a conversation is missing from its bounds because it moved between two pages, the cursor
stays where it is and the message is gone (`hole_after_failed_round`).

So the view keeps what the cursor claims in a session in which neither has happened (`Undisturbed`):
of every message that was merged, between rounds, it is known where it is (`view_keeps`).
-/

namespace Nexo.Web

open Machine Keyed List
open Nexo.Client (Bounds passed_of_checkPage)

section View

variable {server : Server} {stringify : String → String} {restored : Restored} {σ σ' : State}
  {id : String} {s x : Int} {i : ℕ} {round : Round} {batch : List Dto.Message}

/-! ### One round at a time -/

/-- No two rounds are live at a time, and the bounds of a round are one for each conversation. -/
structure Single (σ : State) : Prop where
  live : ∀ (i : ℕ) (round : Round), σ.rounds[i]? = some round → round.Live σ →
    σ.client.running = true ∧ round.signal = σ.client.controller ∧ σ.client.refreshPromise = some i
  nodup : ∀ (i : ℕ) (round : Round), σ.rounds[i]? = some round → (ids round.phase.bounds).Nodup

theorem Single.set (h : Single σ) {new : Round} (hround : σ.rounds[i]? = some round)
    (hrounds : σ'.rounds = σ.rounds.set i new) (haborted : σ'.client.aborted = σ.client.aborted)
    (hrunning : σ'.client.running = σ.client.running)
    (hcontroller : σ'.client.controller = σ.client.controller)
    (hpromise : σ'.client.refreshPromise = σ.client.refreshPromise)
    (hlive : new.Live σ → round.Live σ ∧ new.signal = round.signal)
    (hnodup : (ids new.phase.bounds).Nodup) : Single σ' := by
  have hsame (r : Round) : r.Live σ' ↔ r.Live σ := by rw [Round.Live, Round.Live, haborted]
  refine ⟨?_, ?_⟩
  · rw [hrounds, hrunning, hcontroller, hpromise]
    refine forall_set (fun j r hj _ hr ↦ h.live j r hj ((hsame r).1 hr)) fun hnew ↦ ?_
    obtain ⟨hold, hsignal⟩ := hlive ((hsame new).1 hnew)
    exact hsignal ▸ h.live i round hround hold
  · rw [hrounds]
    exact forall_set (fun j r hj _ ↦ h.nodup j r hj) hnodup

theorem Single.of_eq (h : Single σ) (hrounds : σ'.rounds = σ.rounds)
    (hlive : ∀ (i : ℕ) (round : Round), σ.rounds[i]? = some round → round.Live σ' → round.Live σ ∧
      σ'.client.running = σ.client.running ∧ σ'.client.controller = σ.client.controller ∧
      σ'.client.refreshPromise = σ.client.refreshPromise) : Single σ' where
  live := by
    intro i round hround hr
    rw [hrounds] at hround
    obtain ⟨hold, hrunning, hcontroller, hpromise⟩ := hlive i round hround hr
    rw [hrunning, hcontroller, hpromise]
    exact h.live i round hround hold
  nodup := fun i round hround ↦ h.nodup i round (hrounds ▸ hround)

theorem Single.move (h : Single σ) (hmove : Move server σ σ') : Single σ' := by
  cases hmove with
  | same hsame =>
    refine h.of_eq hsame.rounds fun i round _ hr ↦ ⟨?_, hsame.running, hsame.controller, hsame.refreshPromise⟩
    exact ⟨hsame.aborted ▸ hr.1, hr.2⟩
  | merge | push | visible | mark | marked => exact h.of_eq rfl fun _ _ _ hr ↦ ⟨hr, rfl, rfl, rfl⟩
  | start hrunning =>
    refine h.of_eq rfl fun i round hround hr ↦ ?_
    have hr : round.Live σ := hr
    exact absurd (h.live i round hround hr).1 (by simp [hrunning])
  | stop =>
    refine h.of_eq rfl fun i round hround hr ↦ ?_
    have hold : round.Live σ := ⟨fun hmem ↦ hr.1 (mem_cons_of_mem _ hmem), hr.2⟩
    refine absurd ?_ hr.1
    rw [(h.live i round hround hold).2.1]
    exact mem_cons_self
  | launch hrunning hnone =>
    refine ⟨forall_append (fun j r hj hr ↦ ?_) fun _ ↦ ⟨hrunning, rfl, rfl⟩,
      forall_append h.nodup nodup_nil⟩
    exact absurd (hnone.symm.trans (h.live j r hj hr).2.2) nofun
  | finish i round hround hsettled hpromise =>
    refine h.of_eq rfl fun j r hj hr ↦ ?_
    have hr : r.Live σ := hr
    obtain rfl : i = j := Option.some.inj (hpromise.symm.trans (h.live j r hj hr).2.2)
    obtain rfl : round = r := Option.some.inj (hround.symm.trans hj)
    exact absurd hsettled hr.2
  | enter i round phase henter =>
    refine h.set henter.entry rfl rfl rfl rfl rfl (fun hnew ↦ ⟨⟨hnew.1, henter.pending⟩, rfl⟩) ?_
    exact henter.nodup (h.nodup i round henter.entry)
  | prune i round found bounds hbounded =>
    refine h.set hbounded.entry rfl rfl rfl rfl rfl (fun _ ↦ ⟨hbounded.live, rfl⟩) ?_
    exact hbounded.nodup (h.nodup i round hbounded.entry)
  | range i round fetched range rest hround hlive hphase =>
    refine h.set hround rfl rfl rfl rfl rfl (fun _ ↦ ⟨hlive, rfl⟩) ?_
    have hnodup := h.nodup i round hround
    rw [hphase] at hnodup
    have hrest : (ids rest).Nodup := (nodup_cons.1 hnodup).2
    split_ifs <;> exact hrest
  | page i round fetched range local_ next rest page hround hlive hphase =>
    refine h.set hround rfl rfl rfl rfl rfl (fun _ ↦ ⟨hlive, rfl⟩) ?_
    have hnodup := h.nodup i round hround
    rw [hphase] at hnodup
    split_ifs <;> exact hnodup

/-! ### Where a message is -/

/-- The message is in the view, or was trimmed. -/
def Kept (σ : State) (id : String) (s : Int) : Prop :=
  s ∈ seqs (σ.client.messagesOf id) ∨ (id, s) ∈ σ.trimmed

/-- What is visible up to `x` and was merged is kept. -/
def Held (server : Server) (σ : State) (id : String) (x : Int) : Prop :=
  ∀ s, σ.minSeq id ≤ s → s ≤ x → server.message id s ∈ σ.merged → Kept σ id s

theorem Held.mono {y : Int} (h : Held server σ id x) (hle : y ≤ x) : Held server σ id y :=
  fun s hmin hs ↦ h s hmin (hs.trans hle)

theorem Held.extend {y : Int} (h : Held server σ id x) (hnew : ∀ s, x < s → s ≤ y → Kept σ id s) :
    Held server σ id y := by
  intro s hmin hs hmem
  rcases le_or_gt s x with hle | hlt
  · exact h s hmin hle hmem
  · exact hnew s hlt hs

/-- What `merge` puts together is in the view, or it trims it. -/
theorem kept_of_mem_mergedMessages (hb : batch ≠ [])
    (h : s ∈ seqs (σ.client.mergedMessages id batch)) : Kept (σ.merge id batch) id s := by
  obtain ⟨message, hmem, rfl⟩ := mem_map.1 h
  rw [← take_append_drop (σ.client.overflow id batch) (σ.client.mergedMessages id batch)] at hmem
  rcases mem_append.1 hmem with htake | hdrop
  · refine .inr (mem_append_left _ ?_)
    rw [State.overflowing, if_neg (by simpa using hb)]
    exact mem_map.2 ⟨message, htake, rfl⟩
  · refine .inl ?_
    have hmessages : (σ.merge id batch).client.messagesOf id = _ := ImClient.messagesOf_merge_self hb
    exact mem_map.2 ⟨message, hmessages.symm ▸ hdrop, rfl⟩

/-- **Merging loses nothing** but what it trims. -/
theorem Kept.merge (h : Kept σ id s) (id' : String) (batch : List Dto.Message) :
    Kept (σ.merge id' batch) id s := by
  rcases h with h | h
  · by_cases hid : id = id'
    · subst hid
      by_cases hb : batch = []
      · subst hb
        exact .inl h
      · exact kept_of_mem_mergedMessages hb (mem_seqs_mergeMessages.2 (.inl h))
    · exact .inl ((ImClient.messagesOf_merge_of_ne hid).symm ▸ h)
  · exact .inr (mem_append_right _ h)

theorem kept_of_mem_batch {message : Dto.Message} (h : message ∈ batch) :
    Kept (σ.merge id batch) id message.seq :=
  kept_of_mem_mergedMessages (ne_nil_of_mem h)
    (mem_seqs_mergeMessages.2 (.inr (mem_map_of_mem h)))

theorem Held.merge (h : Held server σ id x) (id' : String) (batch : List Dto.Message) :
    Held server (σ.merge id' batch) id x :=
  fun s hmin hs hmem ↦ (h s hmin hs hmem).merge id' batch

/-- A batch of one conversation is committed. -/
theorem Held.commit (h : Held server σ id x) {id' : String}
    (hbatch : ∀ message ∈ batch, message.conversationId = id') (local_ : Int) :
    Held server (σ.commit id' batch local_) id x := by
  intro s hmin hs hmem
  change Kept (σ.merge id' batch) id s
  rcases mem_append.1 hmem with hnew | hold
  · obtain rfl : id = id' := (server.conversationId_message id s).symm.trans (hbatch _ hnew)
    have hkept : Kept (σ.merge id batch) id (server.message id s).seq := kept_of_mem_batch hnew
    rwa [server.seq_message] at hkept
  · exact (h s hmin hs hold).merge id' batch

/-- What a page brings is kept. -/
theorem Held.commit_next {local_ next : Int} (h : Held server σ id local_)
    (hbatch : ∀ message ∈ batch, message.conversationId = id)
    (hnew : ∀ s, local_ < s → s ≤ next → ∃ message ∈ batch, message.seq = s) :
    Held server (σ.commit id batch next) id next := by
  refine (h.commit hbatch next).extend fun s hlow hhigh ↦ ?_
  obtain ⟨message, hmem, rfl⟩ := hnew s hlow hhigh
  exact kept_of_mem_batch hmem

/-- What the bounds leave is kept. -/
theorem Kept.pruned {found : List Conversation} {bounds : List Bounds} (h : Kept σ id s)
    (hcursor : s ≤ σ.client.cursor id) (hlost : σ.client.unbounded bounds = [])
    (hrange : ∀ range, ImClient.rangeOf bounds id = some range → range.minSeq ≤ s ∧
      (s ∈ seqs (σ.client.messagesOf id) → s ≤ range.maxSeq)) :
    Kept (σ.pruned i round found bounds) id s := by
  rcases h with h | h
  · refine .inl ?_
    have hmessages := ImClient.messagesOf_prune (c := σ.client) found bounds id
    change s ∈ seqs ((σ.client.prune found bounds).messagesOf id)
    rw [hmessages]
    cases hget : ImClient.rangeOf bounds id with
    | none => exact absurd (ImClient.cursor_lt_of_unbounded hlost hget h) (not_lt.2 hcursor)
    | some range =>
      obtain ⟨hmin, hmax⟩ := hrange range hget
      exact ImClient.mem_seqs_inRange.2 ⟨h, hmin, hmax h⟩
  · exact .inr h

/-! ### Rounds that are not disturbed -/

/-- **No round has done damage**: none has deleted messages up to the cursor of a conversation for
want of bounds, and none has ended, or been aborted, before it has brought in line the cursors of
the conversations from which it dropped messages between their bounds and their cursor. -/
def Undisturbed (σ : State) : Prop :=
  ∀ round ∈ σ.rounds, round.lost = [] ∧ (¬ round.Live σ → round.behind = [])

instance (σ : State) : Decidable (Undisturbed σ) :=
  inferInstanceAs (Decidable (∀ round ∈ σ.rounds, _ ∧ (_ → _)))

theorem exists_mem_set {rounds : List Round} (hround : rounds[i]? = some round) (new : Round)
    {r : Round} (hr : r ∈ rounds) :
    new ∈ rounds.set i new ∧ (r = round ∨ r ∈ rounds.set i new) := by
  have hlt : i < rounds.length := (List.getElem?_eq_some_iff.1 hround).1
  refine ⟨mem_set hlt new, ?_⟩
  obtain ⟨j, hj⟩ := getElem?_of_mem hr
  by_cases hij : i = j
  · subst hij
    exact .inl (Option.some.inj (hj.symm.trans hround))
  · exact .inr (mem_of_getElem? ((getElem?_set_ne hij).trans hj))

/-- The damage a round has done stays. -/
theorem Undisturbed.of_set (h : Undisturbed σ') {new : Round} (hround : σ.rounds[i]? = some round)
    (hrounds : σ'.rounds = σ.rounds.set i new) (haborted : σ'.client.aborted = σ.client.aborted)
    (hlost : new.lost = [] → round.lost = [])
    (hbehind : ¬ round.Live σ → ¬ new.Live σ ∧ new.behind = round.behind) : Undisturbed σ := by
  have hsame (r : Round) : r.Live σ' ↔ r.Live σ := by rw [Round.Live, Round.Live, haborted]
  intro r hr
  obtain ⟨hnew, rfl | hr⟩ := exists_mem_set hround new hr
  · obtain ⟨hl, hb⟩ := h new (hrounds ▸ hnew)
    refine ⟨hlost hl, fun hdead ↦ ?_⟩
    obtain ⟨hdead', heq⟩ := hbehind hdead
    exact heq ▸ hb (mt (hsame new).1 hdead')
  · obtain ⟨hl, hb⟩ := h r (hrounds ▸ hr)
    exact ⟨hl, fun hdead ↦ hb (mt (hsame r).1 hdead)⟩

theorem Undisturbed.of_move (h : Undisturbed σ') (hmove : Move server σ σ') : Undisturbed σ := by
  cases hmove with
  | same hsame =>
    intro r hr
    obtain ⟨hl, hb⟩ := h r (hsame.rounds ▸ hr)
    exact ⟨hl, fun hdead ↦ hb fun hlive ↦ hdead ⟨hsame.aborted ▸ hlive.1, hlive.2⟩⟩
  | merge | push | visible | mark | marked | start | finish => exact h
  | stop =>
    intro r hr
    obtain ⟨hl, hb⟩ := h r hr
    exact ⟨hl, fun hdead ↦ hb fun hlive ↦
      hdead ⟨fun hmem ↦ hlive.1 (mem_cons_of_mem _ hmem), hlive.2⟩⟩
  | launch => exact fun r hr ↦ h r (mem_append_left _ hr)
  | enter i round phase henter =>
    refine h.of_set henter.entry rfl rfl id fun hdead ↦ ⟨fun hlive ↦ hdead ⟨hlive.1, henter.pending⟩, rfl⟩
  | prune i round found bounds hbounded =>
    refine h.of_set hbounded.entry rfl rfl (fun hl ↦ ?_) fun hdead ↦ absurd hbounded.live hdead
    exact (append_eq_nil_iff.1 hl).2
  | range _ _ _ _ _ hround hlive | page _ _ _ _ _ _ _ _ hround hlive =>
    exact h.of_set hround rfl rfl id fun hdead ↦ absurd hlive hdead

/-! ### What holds between the moves of a session -/

/-- Up to the cursor the view is complete; where a round has still to bring a cursor in line, it is
up to the bounds of the round. -/
structure Holds (server : Server) (σ : State) : Prop where
  kept : ∀ id, (∀ round ∈ σ.rounds, id ∉ round.behind) → Held server σ id (σ.client.cursor id)
  queued : ∀ round ∈ σ.rounds, ∀ id ∈ round.behind, id ∈ ids round.phase.ranges
  partly : ∀ round ∈ σ.rounds, ∀ b ∈ round.phase.ranges, b.conversationId ∈ round.behind →
    Held server σ b.conversationId (min (σ.client.cursor b.conversationId) b.maxSeq)
  current : ∀ round ∈ σ.rounds, round.Live σ → ∀ range local_,
    round.phase.current = some (range, local_) → Held server σ range.conversationId local_

/-- The rounds are the same and the view is no worse. -/
theorem Holds.of_keeps (h : Holds server σ) (hrounds : σ'.rounds = σ.rounds)
    (hlive : ∀ round : Round, round.Live σ' → round.Live σ)
    (hcursor : ∀ id, σ'.client.cursor id = σ.client.cursor id)
    (hheld : ∀ id x, Held server σ id x → Held server σ' id x) : Holds server σ' where
  kept := by
    intro id hid
    rw [hcursor]
    exact hheld _ _ (h.kept id fun r hr ↦ hid r (hrounds ▸ hr))
  queued := fun r hr ↦ h.queued r (hrounds ▸ hr)
  partly := by
    intro r hr b hb hbehind
    rw [hcursor]
    exact hheld _ _ (h.partly r (hrounds ▸ hr) b hb hbehind)
  current := fun r hr hlive' range local_ heq ↦
    hheld _ _ (h.current r (hrounds ▸ hr) (hlive r hlive') range local_ heq)

theorem Holds.push (h : Holds server σ) {message : Dto.Message}
    (hseq : message.seq = σ.client.cursor message.conversationId + 1) :
    Holds server (σ.commit message.conversationId [message] message.seq) := by
  have hbatch : ∀ m ∈ [message], m.conversationId = message.conversationId := by simp
  have hnew : Kept (σ.commit message.conversationId [message] message.seq) message.conversationId
      message.seq := kept_of_mem_batch mem_cons_self
  refine ⟨fun id hid ↦ ?_, h.queued, fun r hr b hb hbehind ↦ ?_, fun r hr hlive range local_ heq ↦ ?_⟩
  · have hold := (h.kept id hid).commit hbatch message.seq
    rw [cursor_commit]
    split_ifs with heq
    · subst heq
      refine hold.extend fun s hlow hhigh ↦ ?_
      obtain rfl : s = message.seq := by omega
      exact hnew
    · exact hold
  · have hold := (h.partly r hr b hb hbehind).commit hbatch message.seq
    rw [cursor_commit]
    split_ifs with heq
    · rw [heq] at hold ⊢
      refine hold.extend fun s hlow hhigh ↦ ?_
      obtain rfl : s = message.seq := by omega
      exact hnew
    · exact hold
  · exact (h.current r hr hlive range local_ heq).commit hbatch message.seq

/-- A round ends, or goes on to requests that do not fetch. -/
theorem Holds.enter (h : Holds server σ) {phase : Phase} (henter : Enters σ i round phase)
    (hq : Undisturbed (σ.enter i round phase)) :
    Holds server (σ.enter i round phase) := by
  have hmem : round ∈ σ.rounds := mem_of_getElem? henter.entry
  -- a round that ends has left nothing behind, one that goes on has started on all its ranges
  have hbehind : round.behind = [] := by
    rcases henter.leaves with hsettled | hranges
    · obtain ⟨hnew, -⟩ := exists_mem_set henter.entry { round with phase } hmem
      exact (hq _ hnew).2 fun hlive ↦ hlive.2 hsettled
    · refine eq_nil_iff_forall_not_mem.2 fun id hid ↦ ?_
      have hqueued := h.queued round hmem id hid
      rw [hranges] at hqueued
      cases hqueued
  refine ⟨fun id hid ↦ h.kept id fun r hr ↦ ?_, fun r hr ↦ ?_, fun r hr ↦ ?_, fun r hr ↦ ?_⟩
  · obtain ⟨-, rfl | hr⟩ := exists_mem_set henter.entry { round with phase } hr
    · rw [hbehind]
      exact not_mem_nil
    · exact hid r hr
  · rcases mem_rounds_set hr with hr | rfl
    · exact h.queued r hr
    · rw [hbehind]
      exact fun id hid ↦ (nomatch hid)
  · rcases mem_rounds_set hr with hr | rfl
    · exact h.partly r hr
    · rw [henter.ranges]
      exact fun b hb ↦ (nomatch hb)
  · rcases mem_rounds_set hr with hr | rfl
    · exact h.current r hr
    · exact fun _ range local_ heq ↦ absurd (henter.current.symm.trans heq) nofun

/-! ### The live round -/

section Live

variable {i : ℕ} {round : Round}

/-- The other rounds are over, and have left nothing behind. -/
theorem Single.others (hs : Single σ) (hq : Undisturbed σ) (hround : σ.rounds[i]? = some round)
    (hlive : round.Live σ) (new : Round) {r : Round} (hr : r ∈ σ.rounds.set i new) :
    r = new ∨ (r.behind = [] ∧ ¬ r.Live σ) := by
  obtain ⟨j, hj⟩ := getElem?_of_mem hr
  refine forall_set (P := fun _ r ↦ r = new ∨ (r.behind = [] ∧ ¬ r.Live σ)) (fun j r hj hne ↦ ?_)
    (.inl rfl) j r hj
  have hdead : ¬ r.Live σ := by
    intro hlive'
    have hpromise := (hs.live j r hj hlive').2.2
    rw [(hs.live i round hround hlive).2.2] at hpromise
    exact hne (Option.some.inj hpromise).symm
  exact .inr ⟨(hq r (mem_of_getElem? hj)).2 hdead, hdead⟩

theorem Holds.kept_live (h : Holds server σ) (hs : Single σ) (hq : Undisturbed σ)
    (hround : σ.rounds[i]? = some round) (hlive : round.Live σ) (hid : id ∉ round.behind) :
    Held server σ id (σ.client.cursor id) := by
  refine h.kept id fun r hr ↦ ?_
  obtain ⟨-, rfl | hset⟩ := exists_mem_set hround round hr
  · exact hid
  · rcases hs.others hq hround hlive round hset with rfl | ⟨hnil, -⟩
    · exact hid
    · rw [hnil]
      exact not_mem_nil

/-- A move of the live round: only what the round itself has is to be checked. -/
theorem Holds.of_live (hs : Single σ) (hq : Undisturbed σ) (hround : σ.rounds[i]? = some round)
    (hlive : round.Live σ) {new : Round} (hrounds : σ'.rounds = σ.rounds.set i new)
    (haborted : σ'.client.aborted = σ.client.aborted)
    (hkept : ∀ id, id ∉ new.behind → Held server σ' id (σ'.client.cursor id))
    (hqueued : ∀ id ∈ new.behind, id ∈ ids new.phase.ranges)
    (hpartly : ∀ b ∈ new.phase.ranges, b.conversationId ∈ new.behind →
      Held server σ' b.conversationId (min (σ'.client.cursor b.conversationId) b.maxSeq))
    (hcurrent : ∀ range local_, new.phase.current = some (range, local_) →
      Held server σ' range.conversationId local_) : Holds server σ' where
  kept := by
    intro id hid
    obtain ⟨hnew, -⟩ := exists_mem_set hround new (mem_of_getElem? hround)
    exact hkept id (hid new (hrounds ▸ hnew))
  queued := by
    intro r hr id hid
    rcases hs.others hq hround hlive new (hrounds ▸ hr) with rfl | ⟨hnil, -⟩
    · exact hqueued id hid
    · rw [hnil] at hid
      cases hid
  partly := by
    intro r hr b hb hbehind
    rcases hs.others hq hround hlive new (hrounds ▸ hr) with rfl | ⟨hnil, -⟩
    · exact hpartly b hb hbehind
    · rw [hnil] at hbehind
      cases hbehind
  current := by
    intro r hr hlive' range local_ heq
    rcases hs.others hq hround hlive new (hrounds ▸ hr) with rfl | ⟨-, hdead⟩
    · exact hcurrent range local_ heq
    · exact absurd ⟨haborted ▸ hlive'.1, hlive'.2⟩ hdead

section

variable (h : Holds server σ)
include h

/-- **The bounds are applied**: what is lost is above the bounds of a conversation that is noted. -/
theorem Holds.prune (hsound : Sound server restored σ) (hs : Single σ)
    {found : List Conversation} {bounds : List Bounds} (hbounded : Bounded σ i round bounds)
    (hq : Undisturbed σ) (hq' : Undisturbed (σ.pruned i round found bounds)) :
    Holds server (σ.pruned i round found bounds) := by
  have hmem : round ∈ σ.rounds := mem_of_getElem? hbounded.entry
  have hlost : σ.client.unbounded bounds = [] := by
    obtain ⟨hnew, -⟩ := exists_mem_set hbounded.entry (σ.prunedRound round found bounds) hmem
    exact (append_eq_nil_iff.1 (hq' _ hnew).1).1
  have hstale : ∀ b ∈ bounds, b.minSeq ≤ σ.minSeq b.conversationId := by
    intro b hb
    rcases hbounded.stale b hb with hold | hle
    · exact (hsound.rounds round hmem).stale b hold
    · exact hle
  have hbefore : ∀ id, Held server σ id (σ.client.cursor id) := by
    refine fun id ↦ h.kept_live hs hq hbounded.entry hbounded.live fun hid ↦ ?_
    have hqueued := h.queued round hmem id hid
    rw [hbounded.ranges] at hqueued
    cases hqueued
  refine .of_live hs hq hbounded.entry hbounded.live rfl rfl (fun id hid ↦ ?_) (fun id hid ↦ ?_)
    (fun b hb hbehind ↦ ?_) fun _ _ heq ↦ (nomatch heq)
  · intro s hmin hle hmerged
    refine (hbefore id s hmin hle hmerged).pruned hle hlost fun range hrange ↦ ?_
    obtain ⟨hb, rfl⟩ := mem_of_getKey hrange
    exact ⟨(hstale range hb).trans hmin, (ImClient.le_maxSeq_of_not_ahead hid hrange · hle)⟩
  · obtain ⟨range, hrange, rfl⟩ := ImClient.exists_rangeOf_of_ahead hid
    exact mem_map_of_mem hrange
  · intro s hmin hle hmerged
    have hcursor := hle.trans (min_le_left _ _)
    refine (hbefore _ s hmin hcursor hmerged).pruned hcursor hlost fun range hrange ↦ ?_
    have hnodup := hbounded.nodup (hs.nodup i round hbounded.entry)
    obtain rfl : b = range := Option.some.inj ((getKey_of_nodup hnodup hb).symm.trans hrange)
    exact ⟨(hstale b hb).trans hmin, fun _ ↦ hle.trans (min_le_right _ _)⟩

/-- The live round commits a batch, and the cursor with it. -/
theorem Holds.commit_live (hs : Single σ) (hq : Undisturbed σ)
    (hround : σ.rounds[i]? = some round) (hlive : round.Live σ) {range : Bounds}
    {batch : List Dto.Message} {next : Int} {phase : Phase} {behind : List String}
    (hbatch : ∀ message ∈ batch, message.conversationId = range.conversationId)
    (hnext : Held server (σ.commit range.conversationId batch next) range.conversationId next)
    (hbehind : ∀ id, id ≠ range.conversationId → (id ∈ behind ↔ id ∈ round.behind))
    (hranges : ∀ b ∈ phase.ranges, b ∈ round.phase.ranges)
    (hqueued : ∀ id ∈ behind, id ∈ ids phase.ranges)
    (hcurrent : ∀ range' local_, phase.current = some (range', local_) →
      range' = range ∧ local_ = next) :
    Holds server
      ((σ.commit range.conversationId batch next).enter i { round with behind } phase) := by
  have hcursor (id : String) := cursor_commit σ range.conversationId id batch next
  refine .of_live hs hq hround hlive rfl rfl (fun id hid ↦ ?_) hqueued (fun b hb hmem ↦ ?_)
    fun range' local_ heq ↦ ?_
  · change Held server (σ.commit range.conversationId batch next) id
      ((σ.commit range.conversationId batch next).client.cursor id)
    rw [hcursor]
    split_ifs with heq
    · exact heq ▸ hnext
    · exact (h.kept_live hs hq hround hlive (mt (hbehind id heq).2 hid)).commit hbatch next
  · change Held server (σ.commit range.conversationId batch next) b.conversationId
      (min ((σ.commit range.conversationId batch next).client.cursor b.conversationId) b.maxSeq)
    rw [hcursor]
    split_ifs with heq
    · exact heq ▸ hnext.mono (min_le_left _ _)
    · refine (h.partly round (mem_of_getElem? hround) b (hranges b hb) ?_).commit hbatch next
      exact (hbehind _ heq).1 hmem
  · obtain ⟨rfl, rfl⟩ := hcurrent range' local_ heq
    exact hnext

/-- **The cursor is brought in line** with the bounds by which the view was pruned. -/
theorem Holds.range (hsound : Sound server restored σ) (hs : Single σ)
    (hq : Undisturbed σ) {fetched : Fetched} {range : Bounds} {rest : List Bounds}
    (hround : σ.rounds[i]? = some round) (hlive : round.Live σ)
    (hphase : round.phase = .ranging fetched (range :: rest)) :
    Holds server (σ.nextRange i round fetched (range :: rest)) := by
  have hmem : round ∈ σ.rounds := mem_of_getElem? hround
  have hranges : round.phase.ranges = range :: rest := by rw [hphase]; rfl
  have hstale : range.minSeq ≤ σ.minSeq range.conversationId :=
    (hsound.rounds round hmem).stale range (by rw [hphase]; exact mem_cons_self)
  have hupto : Held server σ range.conversationId
      (min (σ.client.cursor range.conversationId) range.maxSeq) := by
    by_cases hid : range.conversationId ∈ round.behind
    · exact h.partly round hmem range (hranges ▸ mem_cons_self) hid
    · exact (h.kept_live hs hq hround hlive hid).mono (min_le_left _ _)
  have hstart : Held server σ range.conversationId (σ.client.startLocal range) := by
    intro s hmin hle hmerged
    refine hupto s hmin (le_min ?_ (hle.trans (min_le_right _ _))) hmerged
    have hmax := hle.trans (min_le_left _ _)
    rcases le_max_iff.1 hmax with hle | hle
    · exact hle
    · omega
  have hrest : ∀ id ∈ round.behind, id ≠ range.conversationId → id ∈ ids rest := by
    intro id hid hne
    have hqueued := h.queued round hmem id hid
    rw [hranges] at hqueued
    exact (mem_cons.1 hqueued).resolve_left hne
  have hempty : ∀ message ∈ ([] : List Dto.Message), message.conversationId = range.conversationId :=
    nofun
  refine h.commit_live hs hq hround hlive hempty (hstart.commit hempty _) (fun id hne ↦ ?_)
    (fun b hb ↦ ?_) (fun id hid ↦ ?_) fun range' local_ heq ↦ ?_
  · simp [hne]
  · rw [hranges]
    refine mem_cons_of_mem _ ?_
    split_ifs at hb <;> exact hb
  · obtain ⟨hid, hne⟩ := mem_filter.1 hid
    have hin := hrest id hid (of_decide_eq_true hne)
    split_ifs <;> exact hin
  · split_ifs at heq
    · cases heq; exact ⟨rfl, rfl⟩
    · cases heq

theorem Holds.page (hs : Single σ) (hq : Undisturbed σ) {fetched : Fetched}
    {range : Bounds} {local_ next : Int} {rest : List Bounds} {page : Nexo.Message.PullResult}
    (hround : σ.rounds[i]? = some round) (hlive : round.Live σ)
    (hphase : round.phase = .pulling fetched range local_ rest)
    (hcheck : Client.checkPage range local_ page.messages = .ok next) :
    Holds server ((σ.commit range.conversationId page.messages next).enter i round
      (if next < range.maxSeq then .pulling fetched range next rest else .ranging fetched rest)) := by
  have hmem : round ∈ σ.rounds := mem_of_getElem? hround
  have hranges : round.phase.ranges = rest := by rw [hphase]; rfl
  have hpassed := passed_of_checkPage hcheck
  have hbatch := hpassed.conv
  have hheld := h.current round hmem hlive range local_ (by rw [hphase]; rfl)
  have hnext := hheld.commit_next hbatch fun s ↦ hpassed.exists_mem
  refine h.commit_live hs hq hround hlive hbatch hnext (fun _ _ ↦ Iff.rfl) (fun b hb ↦ ?_)
    (fun id hid ↦ ?_) fun range' local' heq ↦ ?_
  · rw [hranges]
    split_ifs at hb <;> exact hb
  · have hin : id ∈ ids rest := hranges ▸ h.queued round hmem id hid
    split_ifs <;> exact hin
  · split_ifs at heq
    · cases heq; exact ⟨rfl, rfl⟩
    · cases heq

end

end Live

theorem Holds.move (h : Holds server σ) (hsound : Sound server restored σ) (hs : Single σ)
    (hmove : Move server σ σ') (hq' : Undisturbed σ') : Holds server σ' := by
  have hq := hq'.of_move hmove
  cases hmove with
  | same hsame =>
    refine h.of_keeps hsame.rounds (fun r hr ↦ ⟨hsame.aborted ▸ hr.1, hr.2⟩) (fun id ↦ ?_)
      fun id x hheld s hmin hx hmem ↦ ?_
    · rw [ImClient.cursor, ImClient.cursor, hsame.cursors]
    · have hkept := hheld s (hsame.minSeq ▸ hmin) hx (hsame.merged ▸ hmem)
      rwa [Kept, ImClient.messagesOf, hsame.messages, hsame.trimmed]
  | merge id batch =>
    exact h.of_keeps rfl (fun _ hr ↦ hr) (fun _ ↦ rfl) fun _ _ hheld ↦ hheld.merge id batch
  | push message hgenuine hseq => exact h.push hseq
  | visible id minSeq hle =>
    refine h.of_keeps rfl (fun _ hr ↦ hr) (fun _ ↦ rfl) fun id' x hheld s hmin ↦ hheld s ?_
    refine le_trans ?_ hmin
    by_cases hid : id' = id
    · subst hid
      simpa using hle
    · simp [hid]
  | start | finish | mark | marked =>
    exact h.of_keeps rfl (fun _ hr ↦ hr) (fun _ ↦ rfl) fun _ _ hheld ↦ hheld
  | stop =>
    refine h.of_keeps rfl (fun r hr ↦ ⟨fun hmem ↦ hr.1 ?_, hr.2⟩) (fun _ ↦ rfl) fun _ _ hheld ↦ hheld
    exact mem_cons_of_mem _ hmem
  | launch =>
    refine ⟨fun id hid ↦ h.kept id fun r hr ↦ hid r (mem_append_left _ hr), fun r hr ↦ ?_,
      fun r hr ↦ ?_, fun r hr ↦ ?_⟩
    · rcases mem_append.1 hr with hr | hr
      · exact h.queued r hr
      · cases mem_singleton.1 hr
        exact fun id hid ↦ absurd hid not_mem_nil
    · rcases mem_append.1 hr with hr | hr
      · exact h.partly r hr
      · cases mem_singleton.1 hr
        exact fun b hb ↦ by cases hb
    · rcases mem_append.1 hr with hr | hr
      · exact h.current r hr
      · cases mem_singleton.1 hr
        exact fun _ _ _ heq ↦ by cases heq
  | enter i round phase henter => exact h.enter henter hq'
  | prune i round found bounds hbounded => exact h.prune hsound hs hbounded hq hq'
  | range i round fetched range rest hround hlive hphase =>
    exact h.range hsound hs hq hround hlive hphase
  | page i round fetched range local_ next rest page hround hlive hphase _ hcheck =>
    exact h.page hs hq hround hlive hphase hcheck

theorem holds_of_reachable (h : (webSystem server stringify restored).Reachable σ) :
    Single σ ∧ (Undisturbed σ → Holds server σ) := by
  refine System.invariant (I := fun σ ↦ Single σ ∧ (Undisturbed σ → Holds server σ)) ?_ ?_ h
  · rintro σ rfl
    refine ⟨⟨nofun, nofun⟩, fun _ ↦ ⟨fun id _ s _ _ hmem ↦ (nomatch hmem), nofun, nofun, nofun⟩⟩
  · intro σ e σ' hreach hold hstep
    have hsound := sound_of_reachable hreach
    have hmoves : Moves server σ σ' := State.moves_of_next hstep
    clear hstep
    induction hmoves with
    | refl => exact hold
    | @tail σ₁ σ₂ hpath hmove ih =>
      obtain ⟨hs, hholds⟩ := ih
      refine ⟨hs.move hmove, fun hq ↦ ?_⟩
      exact (hholds (hq.of_move hmove)).move (hsound.moves hpath) hs hmove hq

/-- No round is running. -/
def Idle (σ : State) : Prop := ∀ round ∈ σ.rounds, ¬ round.Live σ

instance (σ : State) : Decidable (Idle σ) :=
  inferInstanceAs (Decidable (∀ round ∈ σ.rounds, ¬ round.Live σ))

/-- **The view keeps what the cursor claims**, in a session whose rounds have done no damage:
between rounds, every message that a push or a sync page has brought, that is visible and at most
the cursor, is in the view, or was trimmed. -/
theorem view_keeps (h : (webSystem server stringify restored).Reachable σ) (hq : Undisturbed σ)
    (hidle : Idle σ) {id : String} {s : Int} (hmerged : server.message id s ∈ σ.merged)
    (hcursor : s ≤ σ.client.cursor id) (hvisible : σ.minSeq id ≤ s ∧ s ≤ σ.maxSeq id) :
    s ∈ seqs (σ.client.messagesOf id) ∨ (id, s) ∈ σ.trimmed := by
  have hholds := (holds_of_reachable h).2 hq
  refine hholds.kept id (fun round hround ↦ ?_) s hvisible.1 hcursor hmerged
  rw [(hq round hround).2 (hidle round hround)]
  exact List.not_mem_nil

end View

theorem view_keeps_demo :
    ∃ σ, (webSystem Demo.server id Demo.restored).Reachable σ ∧ Undisturbed σ ∧ Idle σ ∧
      (3 ∈ seqs (σ.client.messagesOf "a") ∨ ("a", 3) ∈ σ.trimmed) := by
  have hrun : (System.replay (fun σ e ↦ State.next Demo.server id σ e) Demo.restored.state
      Demo.session).map (fun σ ↦ decide (Undisturbed σ ∧ Idle σ ∧
        Demo.server.message "a" 3 ∈ σ.merged ∧ 3 ≤ σ.client.cursor "a" ∧
        σ.minSeq "a" ≤ 3 ∧ 3 ≤ σ.maxSeq "a")) = some true := by
    decide +kernel
  obtain ⟨σ, hσ, hval⟩ := Option.map_eq_some_iff.1 hrun
  obtain ⟨hq, hidle, hmerged, hcursor, hvisible⟩ := of_decide_eq_true hval
  have hreach := System.reachable_of_replay hσ
  exact ⟨σ, hreach, hq, hidle, view_keeps hreach hq hidle hmerged hcursor hvisible⟩

namespace Demo

/-- Conversations `a` and `b`, with `a` as long as it says and `b` too. -/
def listed (a b : Int) : Response := .conversations [conversation "a" 1 a, conversation "b" 1 b] "" false

def bounds (a b : Int) : Response := .bounds [⟨"a", a, 1, 0⟩, ⟨"b", b, 1, 0⟩] "" false

/-- A first round fetches two messages of each. While a second one is on its way, with bounds that
end at the second message of `b`, the third is pushed; then the second round fails on its first
range. A third round, with fresh bounds, goes well. -/
def disturbed : List Event :=
  [.start, .refresh, .resume 0 (listed 2 2), .resume 0 (bounds 2 2), .resume 0 (page "a" [1, 2]),
    .resume 0 .resumed, .resume 0 (page "b" [1, 2]), .resume 0 .resumed, .resume 0 .resumed, .finish 0,
    .visible "a" 1 3, .refresh, .resume 1 (listed 3 2), .visible "b" 1 3, .push (server.message "b" 3),
    .resume 1 (bounds 3 2), .resume 1 .failed, .finish 1,
    .refresh, .resume 2 (listed 3 3), .resume 2 (bounds 3 3), .resume 2 (page "a" [3]),
    .resume 2 .resumed, .resume 2 .resumed, .resume 2 .resumed, .finish 2]

end Demo

/-- **The pushed message is gone**, although the cursor has passed it, and the round that follows
with fresh bounds does not fetch it. -/
theorem hole_after_failed_round :
    ∃ σ, (webSystem Demo.server id Demo.restored).Reachable σ ∧ Idle σ ∧
      Demo.server.message "b" 3 ∈ σ.merged ∧ 3 ≤ σ.client.cursor "b" ∧
      (σ.minSeq "b" ≤ 3 ∧ 3 ≤ σ.maxSeq "b") ∧
      ¬ (3 ∈ seqs (σ.client.messagesOf "b") ∨ ("b", 3) ∈ σ.trimmed) := by
  have hrun : (System.replay (fun σ e ↦ State.next Demo.server id σ e) Demo.restored.state
      Demo.disturbed).map (fun σ ↦ decide (Idle σ ∧
        Demo.server.message "b" 3 ∈ σ.merged ∧ 3 ≤ σ.client.cursor "b" ∧
        (σ.minSeq "b" ≤ 3 ∧ 3 ≤ σ.maxSeq "b") ∧
        ¬ (3 ∈ seqs (σ.client.messagesOf "b") ∨ ("b", 3) ∈ σ.trimmed))) = some true := by
    decide +kernel
  obtain ⟨σ, hσ, hval⟩ := Option.map_eq_some_iff.1 hrun
  exact ⟨σ, System.reachable_of_replay hσ, of_decide_eq_true hval⟩

/-- A conversation that moves to the front between two pages of bounds is in neither: its messages
are deleted and its cursor stays. -/
example : (System.replay (fun σ e ↦ State.next Demo.server id σ e) Demo.restored.state
    [.start, .refresh, .resume 0 (Demo.listed 2 2), .resume 0 (Demo.bounds 2 2),
      .resume 0 (Demo.page "a" [1, 2]), .resume 0 .resumed, .resume 0 (Demo.page "b" [1, 2]),
      .resume 0 .resumed, .resume 0 .resumed, .finish 0,
      .refresh, .resume 1 (Demo.listed 2 2), .resume 1 (.bounds [⟨"a", 2, 1, 0⟩] "n" true),
      .resume 1 (.bounds [] "" false), .resume 1 .resumed, .resume 1 .resumed, .finish 1]).map
      (fun σ ↦ (σ.client.cursor "b", seqs (σ.client.messagesOf "b"))) = some (2, []) := by
  decide +kernel

end Nexo.Web
