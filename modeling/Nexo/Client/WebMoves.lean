import Nexo.Client.WebSystem
import Mathlib.Logic.Relation

/-!
# What a step of the web client can do

Every step is made of a few **moves** (`moves_of_next`): messages are merged, a push or a page moves
a cursor, a round goes from phase to phase, the session starts and stops. What every move keeps,
every step keeps; what the methods do besides does not touch cursors, messages or rounds (`Same`).
-/

namespace Nexo.Web

open Keyed Option
open Nexo.Client (Bounds checkPage)
open Nexo.Message (PullResult Ack)

/-! ### Phases -/

/-- The bounds that the round has. -/
def Phase.bounds : Phase → List Bounds
  | .bounding _ bounds _ => bounds
  | .ranging _ rest => rest
  | .pulling _ _ _ rest => rest
  | _ => []

/-- The ranges that the round has still to start on. -/
def Phase.ranges : Phase → List Bounds
  | .ranging _ rest => rest
  | .pulling _ _ _ rest => rest
  | _ => []

/-- The range that the round is fetching, and how far it has got. -/
def Phase.current : Phase → Option (Bounds × Int)
  | .pulling _ range local_ _ => some (range, local_)
  | _ => none

def Phase.Settled : Phase → Prop
  | .settled => True
  | _ => False

instance : ∀ phase : Phase, Decidable phase.Settled
  | .settled => .isTrue trivial
  | .listing .. | .bounding .. | .ranging .. | .pulling .. | .profiles .. | .history .. | .returned =>
    .isFalse id

/-- The ids of ranges. -/
def ids (bounds : List Bounds) : List String := bounds.map (·.conversationId)

/-- The round goes on as long as its requests do. -/
def Round.Live (round : Round) (σ : State) : Prop :=
  round.signal ∉ σ.client.aborted ∧ ¬ round.phase.Settled

instance (round : Round) (σ : State) : Decidable (round.Live σ) :=
  inferInstanceAs (Decidable (_ ∧ _))

/-! ### Moves -/

/-- Cursors, messages, rounds and receipts are the same. -/
structure Same (σ σ' : State) : Prop where
  cursors : σ'.client.cursors = σ.client.cursors := by rfl
  messages : σ'.client.messages = σ.client.messages := by rfl
  running : σ'.client.running = σ.client.running := by rfl
  controller : σ'.client.controller = σ.client.controller := by rfl
  aborted : σ'.client.aborted = σ.client.aborted := by rfl
  refreshPromise : σ'.client.refreshPromise = σ.client.refreshPromise := by rfl
  rounds : σ'.rounds = σ.rounds := by rfl
  reads : σ'.reads = σ.reads := by rfl
  minSeq : σ'.minSeq = σ.minSeq := by rfl
  merged : σ'.merged = σ.merged := by rfl
  trimmed : σ'.trimmed = σ.trimmed := by rfl

/-- Round `i` goes on to a phase in which it is not about to fetch. -/
structure Enters (σ : State) (i : ℕ) (round : Round) (phase : Phase) : Prop where
  entry : σ.rounds[i]? = some round
  pending : ¬ round.phase.Settled
  aborts : round.signal ∈ σ.client.aborted → phase.Settled
  ranges : phase.ranges = []
  current : phase.current = none
  /-- it leaves no range behind, unless it is over -/
  leaves : phase.Settled ∨ round.phase.ranges = []
  stale : ∀ b ∈ phase.bounds, b ∈ round.phase.bounds ∨ b.minSeq ≤ σ.minSeq b.conversationId
  nodup : (ids round.phase.bounds).Nodup → (ids phase.bounds).Nodup

/-- Round `i` has the last page of bounds. -/
structure Bounded (σ : State) (i : ℕ) (round : Round) (bounds : List Bounds) : Prop where
  entry : σ.rounds[i]? = some round
  live : round.Live σ
  ranges : round.phase.ranges = []
  stale : ∀ b ∈ bounds, b ∈ round.phase.bounds ∨ b.minSeq ≤ σ.minSeq b.conversationId
  nodup : (ids round.phase.bounds).Nodup → (ids bounds).Nodup

/-- What a step is made of. -/
inductive Move (server : Server) (σ : State) : State → Prop
  | same {σ' : State} (h : Same σ σ') : Move server σ σ'
  | merge (id : String) (batch : List Dto.Message) : Move server σ (σ.merge id batch)
  | push (message : Dto.Message) (hgenuine : server.Genuine message)
      (hseq : message.seq = σ.client.cursor message.conversationId + 1) :
      Move server σ (σ.commit message.conversationId [message] message.seq)
  | visible (id : String) (minSeq : Int) (hle : σ.minSeq id ≤ minSeq) :
      Move server σ { σ with minSeq := Function.update σ.minSeq id minSeq }
  | start (hrunning : σ.client.running = false) :
      Move server σ { σ with
        client := { σ.client with
          running := true
          controller := σ.client.controller + 1 } }
  | stop : Move server σ σ.stop
  | launch (hrunning : σ.client.running = true) (hnone : σ.client.refreshPromise = none) :
      Move server σ { σ with
        client := { σ.client with refreshPromise := some σ.rounds.length }
        rounds := σ.rounds ++ [⟨σ.client.controller, .listing [] "", [], []⟩] }
  | finish (i : ℕ) (round : Round) (hround : σ.rounds[i]? = some round)
      (hsettled : round.phase.Settled) (hpromise : σ.client.refreshPromise = some i) :
      Move server σ { σ with client := { σ.client with refreshPromise := none } }
  | enter (i : ℕ) (round : Round) (phase : Phase) (h : Enters σ i round phase) :
      Move server σ (σ.enter i round phase)
  | prune (i : ℕ) (round : Round) (found : List Conversation) (bounds : List Bounds)
      (h : Bounded σ i round bounds) : Move server σ (σ.pruned i round found bounds)
  | range (i : ℕ) (round : Round) (fetched : Fetched) (range : Bounds) (rest : List Bounds)
      (hround : σ.rounds[i]? = some round) (hlive : round.Live σ)
      (hphase : round.phase = .ranging fetched (range :: rest)) :
      Move server σ (σ.nextRange i round fetched (range :: rest))
  | page (i : ℕ) (round : Round) (fetched : Fetched) (range : Bounds) (local_ next : Int)
      (rest : List Bounds) (page : PullResult) (hround : σ.rounds[i]? = some round)
      (hlive : round.Live σ) (hphase : round.phase = .pulling fetched range local_ rest)
      (hgenuine : ∀ message ∈ page.messages, server.Genuine message)
      (hcheck : checkPage range local_ page.messages = .ok next) :
      Move server σ ((σ.commit range.conversationId page.messages next).enter i round
        (if next < range.maxSeq then .pulling fetched range next rest else .ranging fetched rest))
  | mark (read : ReadRequest) (h : read.readSeq ≤ read.cursor) :
      Move server σ { σ with reads := σ.reads ++ [read] }
  | marked (i : ℕ) (read : ReadRequest) (h : σ.reads[i]? = some read) :
      Move server σ { σ with reads := σ.reads.set i { read with done := true } }

/-- Some moves in a row. -/
abbrev Moves (server : Server) : State → State → Prop := Relation.ReflTransGen (Move server)

variable {server : Server} {stringify : String → String} {σ σ' : State} {i : ℕ} {round : Round}

theorem Same.trans {σ₁ : State} (h : Same σ σ₁) (h' : Same σ₁ σ') : Same σ σ' where
  cursors := h'.cursors.trans h.cursors
  messages := h'.messages.trans h.messages
  running := h'.running.trans h.running
  controller := h'.controller.trans h.controller
  aborted := h'.aborted.trans h.aborted
  refreshPromise := h'.refreshPromise.trans h.refreshPromise
  rounds := h'.rounds.trans h.rounds
  reads := h'.reads.trans h.reads
  minSeq := h'.minSeq.trans h.minSeq
  merged := h'.merged.trans h.merged
  trimmed := h'.trimmed.trans h.trimmed

/-- What a method does besides comes first. -/
theorem Same.moves {σ₁ : State} (h : Same σ σ₁) (hmove : Move server σ₁ σ') : Moves server σ σ' :=
  (Relation.ReflTransGen.single (.same h)).tail hmove

namespace State

/-- A phase in which the round does not fetch messages, and has no bounds. -/
structure Aside (phase : Phase) : Prop where
  bounds : phase.bounds = []
  ranges : phase.ranges = [] := by rfl
  current : phase.current = none := by rfl

section

variable (hround : σ.rounds[i]? = some round)
include hround

theorem enters_aside (hpending : ¬ round.phase.Settled)
    {phase : Phase} (haside : Aside phase) (haborts : round.signal ∈ σ.client.aborted → phase.Settled)
    (hleaves : phase.Settled ∨ round.phase.ranges = []) : Enters σ i round phase where
  entry := hround
  pending := hpending
  aborts := haborts
  ranges := haside.ranges
  current := haside.current
  leaves := hleaves
  stale := by
    rw [haside.bounds]
    intro b hb
    cases hb
  nodup := by
    rw [haside.bounds]
    exact fun _ ↦ List.nodup_nil

/-- A round may end at any time. -/
theorem move_settle (hpending : ¬ round.phase.Settled) :
    Move server σ (σ.enter i round .settled) :=
  .enter i round .settled (enters_aside hround hpending ⟨rfl, rfl, rfl⟩ (fun _ ↦ trivial) (.inl trivial))

section

variable (hlive : round.Live σ)
include hlive

/-- A live round that has started on all its ranges goes on to its last requests. -/
theorem move_aside
    (hranges : round.phase.ranges = []) {phase : Phase} (haside : Aside phase) :
    Move server σ (σ.enter i round phase) :=
  .enter i round phase
    (enters_aside hround hlive.2 haside (fun hsig ↦ absurd hsig hlive.1) (.inr hranges))

theorem move_askHistory
    (hranges : round.phase.ranges = []) (bounds : List Bounds) :
    Move server σ (σ.askHistory i round bounds) := by
  have haside (phase : Phase) (h : Aside phase) : Move server σ (σ.enter i round phase) :=
    move_aside hround hlive hranges h
  rw [askHistory]
  split
  · exact haside _ ⟨rfl, rfl, rfl⟩
  · split
    · split <;> exact haside _ ⟨rfl, rfl, rfl⟩
    · exact haside _ ⟨rfl, rfl, rfl⟩

theorem move_askProfiles
    (hranges : round.phase.ranges = []) (bounds : List Bounds) (missing : List String) :
    Move server σ (σ.askProfiles i round bounds missing) := by
  rw [askProfiles]
  split
  · exact move_askHistory hround hlive hranges bounds
  · exact move_aside hround hlive hranges ⟨rfl, rfl, rfl⟩

theorem move_nextRange
    {fetched : Fetched} {rest : List Bounds} (hphase : round.phase = .ranging fetched rest) :
    Move server σ (σ.nextRange i round fetched rest) := by
  cases rest with
  | nil => exact move_askProfiles hround hlive (by rw [hphase]; rfl) _ _
  | cons range rest => exact .range i round fetched range rest hround hlive hphase

end

end

theorem moves_prune {found : List Conversation} {bounds : List Bounds}
    (h : Bounded σ i round bounds) : Moves server σ (σ.prune i round found bounds) := by
  have hlt : i < σ.rounds.length := (List.getElem?_eq_some_iff.1 h.entry).1
  have hround : (σ.pruned i round found bounds).rounds[i]? = some (σ.prunedRound round found bounds) :=
    List.getElem?_set_self hlt
  have hlive : (σ.prunedRound round found bounds).Live (σ.pruned i round found bounds) := ⟨h.live.1, id⟩
  exact (Relation.ReflTransGen.single (.prune i round found bounds h)).tail
    (move_nextRange hround hlive rfl)

theorem moves_pulled (hround : σ.rounds[i]? = some round) (hlive : round.Live σ) {fetched : Fetched}
    {range : Bounds} {local_ : Int} {rest : List Bounds}
    (hphase : round.phase = .pulling fetched range local_ rest) {page : PullResult}
    (hgenuine : ∀ message ∈ page.messages, server.Genuine message) :
    Moves server σ (σ.pulled i round fetched range local_ rest page) := by
  rw [pulled]
  split
  · exact .single (move_settle hround hlive.2)
  · split
    · exact .single (move_settle hround hlive.2)
    next next hcheck =>
      exact .single (.page i round fetched range local_ next rest page hround hlive hphase hgenuine hcheck)

/-- **What a round does** from one `await` to the next. -/
theorem moves_of_resume (hround : σ.rounds[i]? = some round) {response : Response}
    (htruth : σ.Truthful server response) (h : σ.resume i round response = some σ') :
    Moves server σ σ' := by
  unfold resume at h
  by_cases hsig : round.signal ∈ σ.client.aborted
  · rw [if_pos hsig] at h
    split at h
    · cases h
    next hne =>
      cases h
      refine .single (move_settle hround fun hsettled ↦ ?_)
      cases hphase : round.phase with
      | settled => exact hne hphase
      | _ => simp [hphase, Phase.Settled] at hsettled
  rw [if_neg hsig] at h
  have hlive {phase : Phase} (hphase : round.phase = phase) (hopen : ¬ phase.Settled) :
      round.Live σ := ⟨hsig, hphase ▸ hopen⟩
  split at h
  next found cursor items nextCursor hasMore hphase =>
    cases h
    refine .single (move_aside hround (hlive hphase id) (by rw [hphase]; rfl) ?_)
    split_ifs <;> exact ⟨rfl, rfl, rfl⟩
  next found bounds cursor items nextCursor hasMore hphase =>
    cases h
    have hold : round.phase.bounds = bounds := by rw [hphase]; rfl
    have hranges : round.phase.ranges = [] := by rw [hphase]; rfl
    have hstale : ∀ b ∈ items.foldl (fun bounds item ↦ setKey (·.conversationId) item bounds) bounds,
        b ∈ round.phase.bounds ∨ b.minSeq ≤ σ.minSeq b.conversationId := by
      intro b hb
      rw [hold]
      exact (mem_of_mem_foldl_setKey hb).symm.imp_right (htruth b)
    have hnodup (h : (ids round.phase.bounds).Nodup) :
        (ids (items.foldl (fun bounds item ↦ setKey (·.conversationId) item bounds) bounds)).Nodup :=
      nodup_foldl_setKey (hold ▸ h)
    split_ifs
    · exact moves_prune ⟨hround, hlive hphase id, hranges, hstale, hnodup⟩
    · exact .single (move_settle hround (hlive hphase id).2)
    · exact .single (.enter i round _ ⟨hround, (hlive hphase id).2, (absurd · hsig), rfl, rfl,
        .inr hranges, hstale, hnodup⟩)
  next fetched rest hphase =>
    cases h
    exact .single (move_nextRange hround (hlive hphase id) hphase)
  next fetched range local_ rest page hphase =>
    cases h
    exact moves_pulled hround (hlive hphase id) hphase htruth
  next bounds missing users hphase =>
    cases h
    have hsame : Same σ { σ with client := { σ.client with profiles := users ++ σ.client.profiles } } := {}
    refine hsame.moves (move_askProfiles ?_ ?_ ?_ _ _)
    exacts [hround, hlive hphase id, by rw [hphase]; rfl]
  next range begin_ end_ page hphase =>
    cases h
    have hranges : round.phase.ranges = [] := by rw [hphase]; rfl
    have hmerge : Moves server σ (σ.merge range.conversationId (σ.client.historyBatch range page)) :=
      .single (.merge _ _)
    split
    · exact hmerge.tail (move_settle hround (hlive hphase id).2)
    all_goals
      refine hmerge.tail (move_aside ?_ ?_ ?_ ?_)
      exacts [hround, hlive hphase id, hranges, ⟨rfl, rfl, rfl⟩]
  next hphase =>
    have hranges : round.phase.ranges = [] := by rw [hphase]; rfl
    split_ifs at h
    · cases h
      have hsame : Same σ { σ with client := { σ.client with dirty := false } } := {}
      refine hsame.moves (move_aside ?_ ?_ ?_ ?_)
      exacts [hround, hlive hphase id, hranges, ⟨rfl, rfl, rfl⟩]
    · cases h
      exact .single (move_settle hround (hlive hphase id).2)
  case h_13 => cases h
  all_goals
    next hphase =>
      cases h
      exact .single (move_settle hround (hlive hphase id).2)

/-! ### The other processes -/

theorem same_fetchHistory (range : Bounds) (end_ : Int) : Same σ (σ.fetchHistory range end_) := by
  rw [fetchHistory]
  split <;> exact {}

theorem moves_push {message : Dto.Message} (hgenuine : server.Genuine message) :
    Moves server σ (σ.push message) := by
  rw [push]
  split
  next client happlied =>
    obtain ⟨hseq, dirty, conversations, rfl⟩ := ImClient.applyPush_applied happlied
    exact (Relation.ReflTransGen.single (.push message hgenuine hseq)).tail (.same {})
  next => exact .refl

theorem moves_fetched (i : ℕ) (fetch : Fetch) (page : Option PullResult) :
    Moves server σ (σ.fetched i fetch page) := by
  rw [fetched.eq_def]
  split
  · exact .single (.same {})
  next page =>
    split_ifs
    · exact .single (.same {})
    · have hmerge : Moves server σ (σ.merge fetch.range.conversationId
          (σ.client.historyBatch fetch.range page)) := .single (.merge _ _)
      split <;> exact hmerge.tail (.same {})

theorem moves_sent (i : ℕ) (transmit : Transmit) (ack : Option Ack) :
    Moves server σ (σ.sent stringify i transmit ack) := by
  have hsame : Same σ (σ.endTransmit i transmit) := {}
  rw [sent.eq_def]
  split_ifs
  · exact .single (.same hsame)
  · split
    · exact .single (.same {})
    · exact hsame.moves (.merge _ _)

theorem moves_marked {read : ReadRequest} (hread : σ.reads[i]? = some read) (readSeq : Option Int) :
    Moves server σ (σ.marked i read readSeq) := by
  refine (Relation.ReflTransGen.single (.marked i read hread)).tail (.same ?_)
  have hanswered : answered σ.client read readSeq = σ.client ∨
      ∃ seq, answered σ.client read readSeq = σ.client.applyRead read.conversationId seq := by
    cases readSeq with
    | none => exact .inl rfl
    | some seq =>
      rw [answered]
      split_ifs
      · exact .inl rfl
      · exact .inr ⟨seq, rfl⟩
  rw [marked]
  rcases hanswered with h | ⟨seq, h⟩ <;> rw [h] <;> exact {}

/-- **Every step is made of moves.** -/
theorem moves_of_next {event : Event} (h : σ.next server stringify event = some σ') :
    Moves server σ σ' := by
  cases event with
  | start =>
    rw [next] at h
    split_ifs at h with hrunning
    cases h
    exact .single (.start (by simpa using hrunning))
  | stop =>
    cases h
    exact .single .stop
  | refresh =>
    cases h
    rw [refresh]
    split_ifs with hrunning hpromise
    · exact .single (.same {})
    · have hsame : Same σ { σ with client := { σ.client with dirty := false } } := {}
      refine hsame.moves (.launch hrunning ?_)
      simpa using hpromise
    · exact .refl
  | push message =>
    rw [next] at h
    split_ifs at h with hgenuine
    cases h
    exact moves_push hgenuine.2
  | readFrame id seq =>
    rw [next] at h
    split_ifs at h
    cases h
    exact .single (.same {})
  | resume i response =>
    obtain ⟨round, hround, h⟩ := bind_eq_some_iff.1 h
    split_ifs at h with htruth
    exact moves_of_resume hround htruth h
  | finish i =>
    obtain ⟨round, hround, h⟩ := bind_eq_some_iff.1 h
    split at h
    next hphase =>
      split_ifs at h with hpromise
      cases h
      exact .single (.finish i round hround (by rw [hphase]; trivial) hpromise)
    next => cases h
  | select id =>
    obtain ⟨conversation, -, h⟩ := bind_eq_some_iff.1 h
    cases h
    refine .single (.same (Same.trans ?_ (same_fetchHistory _ _)))
    exact {}
  | openDirect | back =>
    cases h
    exact .single (.same {})
  | loadOlder =>
    obtain ⟨active, -, h⟩ := bind_eq_some_iff.1 h
    obtain ⟨range, -, h⟩ := bind_eq_some_iff.1 h
    split_ifs at h
    cases h
    refine .single (.same (Same.trans ?_ (same_fetchHistory _ _)))
    exact {}
  | fetched i page =>
    obtain ⟨fetch, -, h⟩ := bind_eq_some_iff.1 h
    split_ifs at h
    cases h
    exact moves_fetched i fetch page
  | send clientMsgId text sendTime =>
    obtain ⟨target, -, h⟩ := bind_eq_some_iff.1 h
    split_ifs at h
    cases h
    exact .single (.same {})
  | retry clientMsgId =>
    obtain ⟨pending, -, h⟩ := bind_eq_some_iff.1 h
    split_ifs at h
    cases h
    exact .single (.same {})
  | sent i ack =>
    obtain ⟨transmit, -, h⟩ := bind_eq_some_iff.1 h
    split_ifs at h
    cases h
    exact moves_sent i transmit ack
  | markRead id seq =>
    obtain ⟨read, hread, h⟩ := bind_eq_some_iff.1 h
    cases h
    have hle := ImClient.markRead_le_cursor hread
    exact (Relation.ReflTransGen.single (.mark ⟨σ.client.controller, id, read, _, false⟩ hle)).tail
      (.same {})
  | marked i readSeq =>
    obtain ⟨read, hread, h⟩ := bind_eq_some_iff.1 h
    split_ifs at h
    cases h
    exact moves_marked hread readSeq
  | visible id minSeq maxSeq =>
    rw [next] at h
    split_ifs at h with hle
    cases h
    have hsame : Same σ { σ with maxSeq := Function.update σ.maxSeq id maxSeq } := {}
    exact hsame.moves (.visible id minSeq hle)

end State

end Nexo.Web
