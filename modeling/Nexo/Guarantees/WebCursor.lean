import Nexo.Client.WebMoves

/-!
# The cursor of the web client skips no message

Two things write a cursor: a push, one message at a time, and a round of `syncOnce`, which between
two requests carries a copy of it that may long be out of date. Both the cursor and the copy stay
**covered**: whatever is visible up to there has been merged in this session, or was below the
cursor the session started with. That is all a move needs (`Sound.move`), so neither stale bounds
nor requests that fail, are aborted or overtake each other let the cursor pass a message
(`cursor_never_skips`).

The log `merged` is history. What it stands for is a step of the session: a message comes into it
when a push or a page of `syncRange` brings it, and after that step the client has the message, or
has trimmed it because it keeps a hundred later ones (`brings_of_next`, `Merged`).
-/

namespace Nexo.Web

open Machine Keyed List
open Nexo.Client (Bounds passed_of_checkPage pairwise_range)
open Nexo.Message (PullResult Ack)

section Cursor

variable {server : Server} {stringify : String → String} {restored : Restored} {σ σ' : State} {i : ℕ}
  {round : Round}

/-! ### What a step merges -/

/-- The client has the message, or has trimmed it: it keeps the newest messages of the conversation,
and they are all later. -/
def ImClient.Holds (c : ImClient) (message : Dto.Message) : Prop :=
  message ∈ c.messagesOf message.conversationId ∨
    message.conversationId ∉ c.expandedHistory ∧
      (c.messagesOf message.conversationId).length = shownMessages ∧
      ∀ later ∈ c.messagesOf message.conversationId, message.seq < later.seq

/-- **What is merged is held.** -/
theorem ImClient.holds_merge (c : ImClient) {batch : List Dto.Message} {message : Dto.Message}
    (hnodup : (batch.map (·.seq)).Nodup) (hmem : message ∈ batch) :
    (c.merge message.conversationId batch).Holds message := by
  obtain ⟨hasc, hget⟩ := mergeMessages_spec (c.messagesOf message.conversationId) batch
  have hfound : getKey (·.seq) message.seq (c.mergedMessages message.conversationId batch) = some message := by
    rw [mergedMessages, hget, lastOf_of_nodup hnodup, getKey_of_nodup hnodup hmem, Option.some_or]
  have hin := (mem_of_getKey hfound).1
  rw [Holds, messagesOf_merge_self (ne_nil_of_mem hmem)]
  have hsplit := take_append_drop (c.overflow message.conversationId batch)
    (c.mergedMessages message.conversationId batch)
  rw [← hsplit, mem_append] at hin
  refine hin.symm.imp_right fun htrimmed ↦ ?_
  have hpos : 0 < c.overflow message.conversationId batch := by
    by_contra hzero
    rw [Nat.eq_zero_of_not_pos hzero, take_zero] at htrimmed
    cases htrimmed
  rw [overflow] at hpos
  split_ifs at hpos with hexpanded
  · cases hpos
  refine ⟨hexpanded, ?_, ?_⟩
  · rw [length_drop, overflow, if_neg hexpanded]
    omega
  · have hpairwise : (c.mergedMessages message.conversationId batch).Pairwise fun x y ↦ x.seq < y.seq := hasc
    rw [← hsplit] at hpairwise
    exact (pairwise_append.1 hpairwise).2.2 message htrimmed

namespace State

section Merged

theorem merged_fetchHistory (range : Bounds) (end_ : Int) :
    (σ.fetchHistory range end_).merged = σ.merged := by
  rw [fetchHistory]
  split <;> rfl

theorem merged_fetched (fetch : Fetch) (page : Option PullResult) :
    (σ.fetched i fetch page).merged = σ.merged := by
  rw [fetched.eq_def]
  repeat' split
  all_goals rfl

theorem merged_sent (transmit : Transmit) (ack : Option Ack) :
    (σ.sent stringify i transmit ack).merged = σ.merged := by
  rw [sent.eq_def]
  repeat' split
  all_goals rfl

theorem merged_askProfiles (bounds : List Bounds) (missing : List String) :
    (σ.askProfiles i round bounds missing).merged = σ.merged := by
  rw [askProfiles, askHistory]
  repeat' split
  all_goals rfl

theorem merged_nextRange (fetched : Fetched) (rest : List Bounds) :
    (σ.nextRange i round fetched rest).merged = σ.merged := by
  cases rest with
  | nil => exact merged_askProfiles _ _
  | cons => rfl

end Merged

/-- The event brings the message: a push of it, or a page of `syncRange` with it. -/
def Brings (σ : State) (message : Dto.Message) : Event → Prop
  | .push message' => message' = message
  | .resume i (.messages page) =>
    message ∈ page.messages ∧ ∃ round, σ.rounds[i]? = some round ∧ round.phase.current.isSome
  | _ => False

/-- Only pushes and pages of `syncRange` merge what is counted. -/
theorem merged_of_next {e : Event} (h : σ.next server stringify e = some σ') :
    σ'.merged = σ.merged ∨ (∃ message, e = .push message ∧ σ' = σ.push message) ∨
      ∃ i round fetched range local_ rest page, e = .resume i (.messages page) ∧
        σ.rounds[i]? = some round ∧ round.phase = .pulling fetched range local_ rest ∧
        σ' = σ.pulled i round fetched range local_ rest page := by
  cases e with
  | push message =>
    rw [next] at h
    split_ifs at h
    exact .inr (.inl ⟨message, rfl, (Option.some.inj h).symm⟩)
  | resume i response =>
    obtain ⟨round, hround, hresume⟩ := Option.bind_eq_some_iff.1 h
    clear h
    split_ifs at hresume with htruth
    unfold resume at hresume
    by_cases hsig : round.signal ∈ σ.client.aborted
    · rw [if_pos hsig] at hresume
      split at hresume <;> cases hresume
      exact .inl rfl
    rw [if_neg hsig] at hresume
    split at hresume
    case h_4 fetched range local_ rest page hphase =>
      exact .inr (.inr ⟨i, round, fetched, range, local_, rest, page, rfl, hround, hphase,
        (Option.some.inj hresume).symm⟩)
    all_goals
      left
      grind [prune, enter, merged_nextRange, merged_askProfiles, merge, pruned]
  | _ =>
    left
    simp only [next, Option.bind_eq_bind, Option.bind_eq_some_iff] at h
    grind [stop, refresh, merged_fetchHistory, merged_fetched, merged_sent, marked]

/-- **What a step merges was brought, and is then held.** -/
theorem brings_of_next {e : Event} (h : σ.next server stringify e = some σ') {message : Dto.Message}
    (hmem : message ∈ σ'.merged) :
    message ∈ σ.merged ∨ σ.Brings message e ∧ σ'.client.Holds message := by
  rcases merged_of_next h with hsame | ⟨message', rfl, rfl⟩ |
    ⟨i, round, fetched, range, local_, rest, page, rfl, hround, hphase, rfl⟩
  · exact .inl (hsame ▸ hmem)
  · rw [push] at hmem ⊢
    split at hmem
    next client happlied =>
      rcases mem_cons.1 hmem with rfl | hold
      · obtain ⟨-, dirty, conversations, rfl⟩ := ImClient.applyPush_applied happlied
        exact .inr ⟨rfl, ImClient.holds_merge _ (nodup_singleton _) (mem_singleton_self _)⟩
      · exact .inl hold
    next => exact .inl hmem
  · rw [pulled] at hmem ⊢
    split_ifs at hmem ⊢
    · exact .inl hmem
    split at hmem
    · exact .inl hmem
    next next hcheck =>
      rcases mem_append.1 hmem with hpage | hold
      · have hnodup : (page.messages.map (·.seq)).Nodup := by
          rw [(passed_of_checkPage hcheck).seqs]
          exact (pairwise_range _ _).imp ne_of_lt
        rw [← (passed_of_checkPage hcheck).conv _ hpage]
        exact .inr ⟨⟨hpage, round, hround, by rw [hphase]; rfl⟩, ImClient.holds_merge σ.client hnodup hpage⟩
      · exact .inl hold

end State

/-! ### The cursor -/

/-- What is visible up to `x`, above the restored cursor, has been merged. -/
def Covered (server : Server) (restored : Restored) (σ : State) (id : String) (x : Int) : Prop :=
  ∀ s, σ.minSeq id ≤ s → s ≤ x → restored.cursor id < s → server.message id s ∈ σ.merged

/-- The bounds of the round are old at worst, and its copy of a cursor is covered. -/
structure Round.Sound (server : Server) (restored : Restored) (σ : State) (round : Round) : Prop where
  stale : ∀ b ∈ round.phase.bounds, b.minSeq ≤ σ.minSeq b.conversationId
  current : ∀ range local_, round.phase.current = some (range, local_) →
    Covered server restored σ range.conversationId local_

structure Sound (server : Server) (restored : Restored) (σ : State) : Prop where
  cursor : ∀ id, Covered server restored σ id (σ.client.cursor id)
  rounds : ∀ round ∈ σ.rounds, round.Sound server restored σ
  reads : ∀ read ∈ σ.reads, read.readSeq ≤ read.cursor

/-- The visible range has not grown downwards, and nothing that was merged is forgotten. -/
structure Grows (σ σ' : State) : Prop where
  minSeq : ∀ id, σ.minSeq id ≤ σ'.minSeq id
  merged : ∀ message ∈ σ.merged, message ∈ σ'.merged

theorem Grows.of_eq (hmin : σ'.minSeq = σ.minSeq := by rfl) (hmerged : σ'.merged = σ.merged := by rfl) :
    Grows σ σ' where
  minSeq := fun _ ↦ hmin ▸ le_rfl
  merged := fun _ ↦ hmerged ▸ id

theorem Covered.mono {id : String} {x : Int} (h : Covered server restored σ id x) (hg : Grows σ σ') :
    Covered server restored σ' id x :=
  fun s hmin hx hres ↦ hg.merged _ (h s ((hg.minSeq id).trans hmin) hx hres)

theorem Round.Sound.mono {round : Round} (h : round.Sound server restored σ) (hg : Grows σ σ') :
    round.Sound server restored σ' where
  stale := fun b hb ↦ (h.stale b hb).trans (hg.minSeq _)
  current := fun range local_ heq ↦ (h.current range local_ heq).mono hg

/-- What is new is to be checked. -/
theorem Sound.of_grows (h : Sound server restored σ) (hg : Grows σ σ')
    (hcursor : ∀ id, σ'.client.cursor id = σ.client.cursor id ∨
      Covered server restored σ' id (σ'.client.cursor id))
    (hrounds : ∀ round ∈ σ'.rounds, round ∈ σ.rounds ∨ round.Sound server restored σ')
    (hreads : ∀ read ∈ σ'.reads, read ∈ σ.reads ∨ read.readSeq ≤ read.cursor) :
    Sound server restored σ' where
  cursor := by
    intro id
    rcases hcursor id with heq | hcov
    · exact heq ▸ (h.cursor id).mono hg
    · exact hcov
  rounds := by
    intro round hround
    rcases hrounds round hround with hold | hnew
    · exact (h.rounds round hold).mono hg
    · exact hnew
  reads := by
    intro read hread
    rcases hreads read hread with hold | hnew
    · exact h.reads read hold
    · exact hnew

theorem cursor_commit (σ : State) (id id' : String) (batch : List Dto.Message) (local_ : Int) :
    (σ.commit id batch local_).client.cursor id' =
      if id' = id then local_ else σ.client.cursor id' := by
  by_cases h : id' = id <;> simp [State.commit, ImClient.commit, ImClient.cursor, ImClient.merge, h]

/-- **The batch continues what is covered.** -/
theorem Covered.commit {id : String} {local_ next : Int} {batch : List Dto.Message}
    (h : Covered server restored σ id local_)
    (hbatch : ∀ s, local_ < s → s ≤ next → server.message id s ∈ batch) :
    Covered server restored (σ.commit id batch next) id next := by
  intro s hmin hs hres
  rcases le_or_gt s local_ with hle | hlt
  · exact mem_append_right _ (h s hmin hle hres)
  · exact mem_append_left _ (hbatch s hlt hs)

/-- A range starts no higher than what is covered: bounds are old at worst. -/
theorem Covered.startLocal {range : Bounds}
    (h : Covered server restored σ range.conversationId (σ.client.cursor range.conversationId))
    (hstale : range.minSeq ≤ σ.minSeq range.conversationId) :
    Covered server restored σ range.conversationId (σ.client.startLocal range) := by
  intro s hmin hs hres
  refine h s hmin ?_ hres
  have hmax : s ≤ max (σ.client.cursor range.conversationId) (range.minSeq - 1) :=
    hs.trans (min_le_left _ _)
  rcases le_max_iff.1 hmax with hle | hle
  · exact hle
  · omega

theorem mem_rounds_set {rounds : List Round} {i : ℕ} {round r : Round} (h : r ∈ rounds.set i round) :
    r ∈ rounds ∨ r = round := mem_or_eq_of_mem_set h

section

variable (h : Sound server restored σ)
include h

/-- A commit by round `i`: the cursor and the copy are at the same place. -/
theorem Sound.commit {i : ℕ} {round : Round} {range : Bounds}
    {batch : List Dto.Message} {next : Int} {phase : Phase} {behind : List String}
    (hcov : Covered server restored (σ.commit range.conversationId batch next) range.conversationId next)
    (hstale : ∀ b ∈ phase.bounds, b.minSeq ≤ σ.minSeq b.conversationId)
    (hcurrent : ∀ range' local_, phase.current = some (range', local_) →
      range' = range ∧ local_ = next) :
    Sound server restored
      ((σ.commit range.conversationId batch next).enter i { round with behind } phase) := by
  refine h.of_grows ⟨fun _ ↦ le_rfl, fun _ ↦ mem_append_right _⟩ (fun id ↦ ?_) (fun r hr ↦ ?_)
    fun _ ↦ .inl
  · have hcursor := cursor_commit σ range.conversationId id batch next
    by_cases hid : id = range.conversationId
    · rw [if_pos hid] at hcursor
      subst hid
      exact .inr (hcursor.symm ▸ hcov)
    · rw [if_neg hid] at hcursor
      exact .inl hcursor
  · rcases mem_rounds_set hr with hr | rfl
    · exact .inl hr
    · refine .inr ⟨hstale, fun range' local_ heq ↦ ?_⟩
      obtain ⟨rfl, rfl⟩ := hcurrent range' local_ heq
      exact hcov

theorem Sound.move (hmove : Move server σ σ') :
    Sound server restored σ' := by
  cases hmove with
  | same hsame =>
    refine h.of_grows (.of_eq hsame.minSeq hsame.merged) (fun id ↦ .inl ?_) (fun r hr ↦ .inl ?_)
      fun q hq ↦ .inl ?_
    · rw [ImClient.cursor, ImClient.cursor, hsame.cursors]
    · exact hsame.rounds ▸ hr
    · exact hsame.reads ▸ hq
  | merge id batch => exact h.of_grows .of_eq (fun _ ↦ .inl rfl) (fun _ ↦ .inl) fun _ ↦ .inl
  | push message hgenuine hseq =>
    refine h.of_grows ⟨fun _ ↦ le_rfl, fun _ ↦ mem_append_right _⟩ (fun id ↦ ?_) (fun _ ↦ .inl) fun _ ↦ .inl
    have hcursor := cursor_commit σ message.conversationId id [message] message.seq
    by_cases hid : id = message.conversationId
    · rw [if_pos hid] at hcursor
      subst hid
      refine .inr (hcursor.symm ▸ (h.cursor _).commit fun s hlow hhigh ↦ ?_)
      obtain rfl : s = message.seq := by omega
      exact mem_singleton.2 hgenuine.symm
    · rw [if_neg hid] at hcursor
      exact .inl hcursor
  | visible id minSeq hle =>
    have hgrows : ∀ id', σ.minSeq id' ≤ Function.update σ.minSeq id minSeq id' := by
      intro id'
      by_cases hid : id' = id
      · subst hid
        simpa using hle
      · simp [hid]
    exact h.of_grows ⟨hgrows, fun _ hm ↦ hm⟩ (fun _ ↦ .inl rfl) (fun _ ↦ .inl) fun _ ↦ .inl
  | start | stop | finish => exact h.of_grows .of_eq (fun _ ↦ .inl rfl) (fun _ ↦ .inl) fun _ ↦ .inl
  | launch =>
    refine h.of_grows .of_eq (fun _ ↦ .inl rfl) (fun r hr ↦ ?_) fun _ ↦ .inl
    rcases mem_append.1 hr with hr | hr
    · exact .inl hr
    · cases mem_singleton.1 hr
      exact .inr ⟨nofun, nofun⟩
  | enter i round phase henter =>
    refine h.of_grows .of_eq (fun _ ↦ .inl rfl) (fun r hr ↦ ?_) fun _ ↦ .inl
    rcases mem_rounds_set hr with hr | rfl
    · exact .inl hr
    · refine .inr ⟨fun b hb ↦ ?_, fun range local_ heq ↦ ?_⟩
      · rcases henter.stale b hb with hold | hle
        · exact (h.rounds round (mem_of_getElem? henter.entry)).stale b hold
        · exact hle
      · exact absurd (henter.current.symm.trans heq) nofun
  | prune i round found bounds hbounded =>
    refine h.of_grows .of_eq (fun _ ↦ .inl rfl) (fun r hr ↦ ?_) fun _ ↦ .inl
    rcases mem_rounds_set hr with hr | rfl
    · exact .inl hr
    · refine .inr ⟨fun b hb ↦ ?_, nofun⟩
      rcases hbounded.stale b hb with hold | hle
      · exact (h.rounds round (mem_of_getElem? hbounded.entry)).stale b hold
      · exact hle
  | range i round fetched range rest hround hlive hphase =>
    have hsound := h.rounds round (mem_of_getElem? hround)
    have hstale : ∀ b ∈ range :: rest, b.minSeq ≤ σ.minSeq b.conversationId := by
      have := hsound.stale
      rwa [hphase] at this
    have hcov := (h.cursor range.conversationId).startLocal (hstale range mem_cons_self)
    refine h.commit (hcov.commit fun s hlow hhigh ↦ absurd hhigh (not_le.2 hlow)) ?_ ?_
    · intro b hb
      refine hstale b (mem_cons_of_mem _ ?_)
      split_ifs at hb <;> exact hb
    · intro range' local_ heq
      split_ifs at heq
      · cases heq; exact ⟨rfl, rfl⟩
      · cases heq
  | page i round fetched range local_ next rest page hround hlive hphase hgenuine hcheck =>
    have hsound := h.rounds round (mem_of_getElem? hround)
    have hstale : ∀ b ∈ rest, b.minSeq ≤ σ.minSeq b.conversationId := by
      have := hsound.stale
      rwa [hphase] at this
    have hcov := hsound.current range local_ (by rw [hphase]; rfl)
    refine h.commit (hcov.commit fun s hlow hhigh ↦ ?_) ?_ ?_
    · have hpassed := passed_of_checkPage hcheck
      obtain ⟨message, hmem, rfl⟩ := hpassed.exists_mem hlow hhigh
      have hconv := hpassed.conv message hmem
      have hmessage : message = server.message message.conversationId message.seq :=
        hgenuine message hmem
      rwa [← hconv, ← hmessage]
    · intro b hb
      refine hstale b ?_
      split_ifs at hb <;> exact hb
    · intro range' local' heq
      split_ifs at heq
      · cases heq; exact ⟨rfl, rfl⟩
      · cases heq
  | mark read hle =>
    refine h.of_grows .of_eq (fun _ ↦ .inl rfl) (fun _ ↦ .inl) fun q hq ↦ ?_
    rcases mem_append.1 hq with hq | hq
    · exact .inl hq
    · exact .inr (mem_singleton.1 hq ▸ hle)
  | marked i read hread =>
    refine h.of_grows .of_eq (fun _ ↦ .inl rfl) (fun _ ↦ .inl) fun q hq ↦ ?_
    rcases mem_or_eq_of_mem_set hq with hq | rfl
    · exact .inl hq
    · exact .inr (h.reads read (mem_of_getElem? hread))

theorem Sound.moves (hmoves : Moves server σ σ') :
    Sound server restored σ' := by
  induction hmoves with
  | refl => exact h
  | tail _ hmove ih => exact ih.move hmove

end

theorem sound_of_reachable (h : (webSystem server stringify restored).Reachable σ) :
    Sound server restored σ := by
  refine System.invariant (I := Sound server restored) ?_ ?_ h
  · rintro σ rfl
    refine ⟨fun id s _ hs hres ↦ absurd hs (not_le.2 hres), nofun, nofun⟩
  · intro σ e σ' _ hsound hstep
    exact hsound.moves (State.moves_of_next hstep)

/-- **The message was merged in this session**: in a step from `σ₀` to `σ₁`, which a push or a page
of `syncRange` brought about, the client has got it, and the session has gone on from there. -/
def Merged (server : Server) (stringify : String → String) (restored : Restored) (σ : State)
    (message : Dto.Message) : Prop :=
  ∃ σ₀ e σ₁ t, (webSystem server stringify restored).Reachable σ₀ ∧
    σ₀.next server stringify e = some σ₁ ∧ σ₀.Brings message e ∧ σ₁.client.Holds message ∧
    (webSystem server stringify restored).Path σ₁ t σ

theorem merged_of_reachable (h : (webSystem server stringify restored).Reachable σ) :
    ∀ message ∈ σ.merged, Merged server stringify restored σ message := by
  refine System.invariant (I := fun σ ↦ ∀ message ∈ σ.merged, Merged server stringify restored σ message)
    ?_ (fun σ e σ' hreach hmerged hstep message hmem ↦ ?_) h
  · rintro σ rfl message hmem
    cases hmem
  · rcases State.brings_of_next hstep hmem with hold | ⟨hbrings, hholds⟩
    · obtain ⟨σ₀, e₀, σ₁, t, hσ₀, hnext, hbrings, hholds, hpath⟩ := hmerged message hold
      exact ⟨σ₀, e₀, σ₁, e :: t, hσ₀, hnext, hbrings, hholds, hpath.step hstep⟩
    · exact ⟨σ, e, σ', [], hreach, hstep, hbrings, hholds, .refl σ'⟩

/-- **The cursor skips no message**, at no time and in no conversation, and **no receipt is ahead of
the cursor** it is sent at. -/
theorem cursor_never_skips (h : (webSystem server stringify restored).Reachable σ) :
    (∀ id s, σ.minSeq id ≤ s → s ≤ σ.client.cursor id → restored.cursor id < s →
      Merged server stringify restored σ (server.message id s)) ∧
    ∀ read ∈ σ.reads, read.readSeq ≤ read.cursor := by
  have hsound := sound_of_reachable h
  refine ⟨fun id s hmin hle hrestored ↦ ?_, hsound.reads⟩
  exact merged_of_reachable h _ (hsound.cursor id s hmin hle hrestored)

end Cursor

namespace Demo

/-- A server whose messages are told apart by conversation and number. -/
def server : Server where
  message id seq := ⟨"", "", id, seq, 1, "u1", "u2", "", 1, "", 0⟩
  conversationId_message := fun _ _ ↦ rfl
  seq_message := fun _ _ ↦ rfl

/-- A session without cursors. -/
def restored : Restored where
  userId := "u2"
  cursors := fun _ ↦ none
  nonneg := nofun
  minSeq := fun _ ↦ 1
  maxSeq := fun _ ↦ 2

def conversation (id : String) (minSeq maxSeq : Int) : Conversation where
  conversationId := id
  minSeq := minSeq
  maxSeq := maxSeq
  readSeq := 0
  type := 1
  peerUserId := none
  groupId := none
  unread := 0
  updatedAt := 0
  lastMessage := none

def page (id : String) (seqs : List Int) : Response := .messages ⟨seqs.map (server.message id), false⟩

/-- A round fetches two messages, the third one is pushed. -/
def session : List Event :=
  [.start, .refresh, .resume 0 (.conversations [conversation "a" 1 2] "" false),
    .resume 0 (.bounds [⟨"a", 2, 1, 0⟩] "" false), .resume 0 (page "a" [1, 2]), .resume 0 .resumed,
    .resume 0 .resumed, .finish 0, .visible "a" 1 3, .push (server.message "a" 3), .markRead "a" 9]

end Demo

theorem cursor_never_skips_demo :
    ∃ σ, (webSystem Demo.server id Demo.restored).Reachable σ ∧ σ.client.cursor "a" = 3 ∧
      σ.reads.map (fun read ↦ (read.readSeq, read.cursor)) = [(3, 3)] ∧
      Merged Demo.server id Demo.restored σ (Demo.server.message "a" 2) := by
  have hrun : (System.replay (fun σ e ↦ State.next Demo.server id σ e) Demo.restored.state
      Demo.session).map (fun σ ↦ (σ.client.cursor "a", σ.minSeq "a",
        σ.reads.map fun read ↦ (read.readSeq, read.cursor))) = some (3, 1, [(3, 3)]) := by
    decide +kernel
  obtain ⟨σ, hσ, hval⟩ := Option.map_eq_some_iff.1 hrun
  obtain ⟨hcursor, hrest⟩ := Prod.mk.inj hval
  obtain ⟨hmin, hreads⟩ := Prod.mk.inj hrest
  have hreach := System.reachable_of_replay hσ
  refine ⟨σ, hreach, hcursor, hreads, ?_⟩
  exact (cursor_never_skips hreach).1 "a" 2 (by omega) (by omega) (by decide)

end Nexo.Web
