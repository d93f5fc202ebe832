import Nexo.Gateway.PushOrder
import Nexo.Gateway.PushPeers

/-!
# The way of an event to the connections

While a worker is at an event, the logs say once of every connection it is through with, and not at
all of any other, that the event came (`Task.Ok`). A connection that stays in the registry is found
when the loop comes to its user (`Job.Covers`), so that at the end each one that was to get the
event has one entry about it (`Job.Reported`).
-/

namespace Nexo.Gateway

open Machine List

/-! ### `Client.Push`, as a worker runs it -/

/-- Where a worker's `Client.Push` can stand. -/
def Op.Fits (closing : Prop) (o : Op) : Prop :=
  match o.pc with
  | .start => o.call ≠ .snapshot
  | .undo _ | .drop => ∃ resync, o.call = .push resync
  | .giveBack _ false => closing
  | .enqueue _ | .giveBack _ true | .slow | .finished => True

theorem Op.Fits.mono {p q : Prop} {o : Op} (h : o.Fits p) (hpq : p → q) : o.Fits q := by
  unfold Op.Fits at h ⊢
  split <;> simp_all

/-- It is over once the frame is in the queue, the queue was full, or the connection was closing. -/
theorem Op.Fits.next {capacity : ℕ} {b b' : Budget} {c c' : Sender} {o o' : Op} {handoff : Bool}
    (h : o.Fits (c.closing = true)) (hnext : o.next capacity b c handoff = some (o', c', b')) :
    o'.Fits (c'.closing = true) ∧
      (o'.pc = .finished → (∀ f, o.pc ≠ .enqueue f) → o.pc ≠ .slow → c.closing = true) := by
  unfold Op.next at hnext
  unfold Op.Fits at h
  split at hnext
  next hpc =>
    rw [hpc] at h
    split at hnext
    next =>
      cases hnext
      exact ⟨trivial, nofun⟩
    next hsend =>
      cases hnext
      refine ⟨?_, nofun⟩
      change ∃ resync, o.call = .push resync
      cases hcall : o.call with
      | send => exact absurd (.inl hcall) hsend
      | push resync => exact ⟨resync, rfl⟩
      | snapshot => exact absurd hcall h
  next f hpc =>
    rw [hpc] at h
    cases hnext
    exact ⟨h, nofun⟩
  next hpc =>
    rw [hpc] at h
    obtain ⟨resync, hcall⟩ := h
    rw [hcall] at hnext
    cases hnext
    exact ⟨(nomatch ·), nofun⟩
  next f hpc =>
    split_ifs at hnext with _ hclosing
    · cases hnext
      exact ⟨hclosing, nofun⟩
    · cases hnext
      exact ⟨trivial, fun _ hne ↦ absurd hpc (hne f)⟩
    · cases hnext
      exact ⟨trivial, fun _ hne ↦ absurd hpc (hne f)⟩
    · cases hnext
      exact ⟨trivial, fun _ hne ↦ absurd hpc (hne f)⟩
  next f full hpc =>
    rw [hpc] at h
    cases hnext
    cases full with
    | true => exact ⟨trivial, nofun⟩
    | false => exact ⟨trivial, fun _ _ _ ↦ h⟩
  next hpc =>
    cases hnext
    exact ⟨trivial, fun _ _ hne ↦ absurd hpc hne⟩
  next => cases hnext

/-! ### What a worker knows -/

/-- The worker, with other connections taken for steady. -/
def WorkerPc.staying (stay : List ℕ → List ℕ → List ℕ) : WorkerPc → WorkerPc
  | .idle => .idle
  | .taken index steady => .taken index (stay [] steady)
  | .resolved job => .resolved { job with steady := stay job.reached job.steady }
  | .listed job => .listed { job with steady := stay job.reached job.steady }
  | .found job local_ => .found { job with steady := stay job.reached job.steady } local_
  | .fanning job targets conns =>
    .fanning { job with steady := stay job.reached job.steady } targets conns
  | .pushing job targets conns op =>
    .pushing { job with steady := stay job.reached job.steady } targets conns op
  | .closing job targets conns conn =>
    .closing { job with steady := stay job.reached job.steady } targets conns conn

theorem WorkerPc.staying_eq (pc : WorkerPc) : pc.staying (fun _ steady ↦ steady) = pc := by
  cases pc <;> rfl

theorem WorkerPc.left_eq (j : ℕ) (pc : WorkerPc) :
    pc.left j = pc.staying fun reached steady ↦ steady.filter fun i ↦ i ≠ j ∨ i ∈ reached := by
  cases pc with
  | taken => simp [left, staying]
  | _ => rfl

/-- What a worker has to do with the connections. -/
structure Task where
  index : ℕ
  senderConnId : String
  steady : List ℕ
  reached : List ℕ
  /-- the connections that were found, and that the worker has not dealt with yet -/
  pending : List ℕ
  targets : List String

def Job.task (job : Job) (targets : List String) (pending : List ℕ) : Task :=
  { index := job.index, senderConnId := job.event.senderConnId, steady := job.steady
    reached := job.reached, pending, targets }

/-- The event is what `ResolvePush` made of the payload that was received. -/
def Job.Resolved (received : List PushPayload) (job : Job) : Prop :=
  ∃ p d, received[job.index]? = some p ∧ resolvePush d p = some job.event

/-- Besides, the roster is what `Recipients` answered. -/
def Job.Genuine (received : List PushPayload) (job : Job) : Prop :=
  job.Resolved received ∧ ∃ roster, job.roster = Message.recipients roster job.event

/-- The worker is at an event that was received. -/
def WorkerPc.Genuine (received : List PushPayload) : WorkerPc → Prop
  | .idle | .taken _ _ => True
  | .resolved job => job.Resolved received
  | .listed job | .found job _ | .fanning job _ _ | .pushing job _ _ _ | .closing job _ _ _ =>
    job.Genuine received

variable {received : List PushPayload} {pc : WorkerPc}

theorem Job.Resolved.receive {job : Job} (h : job.Resolved received) (p : PushPayload) :
    job.Resolved (received ++ [p]) := by
  obtain ⟨p', d, hp', hd⟩ := h
  exact ⟨p', d, List.getElem?_append_left (List.getElem?_eq_some_iff.1 hp').1 ▸ hp', hd⟩

theorem WorkerPc.Genuine.receive (h : pc.Genuine received) (p : PushPayload) :
    pc.Genuine (received ++ [p]) := by
  cases pc with
  | idle | taken => trivial
  | resolved => exact Job.Resolved.receive h p
  | _ => exact h.imp_left (·.receive p)

theorem WorkerPc.Goes.genuine {s : PushState} {pc' : WorkerPc} (hgoes : pc.Goes s pc')
    (h : pc.Genuine s.received) : pc'.Genuine s.received := by
  cases hgoes with
  | resolve hp hevent => exact ⟨_, _, hp, hevent⟩
  | recipients roster => exact ⟨h, roster, rfl⟩
  | _ => exact h

theorem WorkerPc.Ends.genuine {s : PushState} {job : Job} (hends : pc.Ends s job)
    (h : pc.Genuine s.received) : job.Genuine s.received := by
  cases hends <;> exact h

theorem WorkerPc.Genuine.left (h : pc.Genuine received) (j : ℕ) : (pc.left j).Genuine received := by
  cases pc <;> exact h

/-! ### The logs -/

/-- Of the events of one shard, the earlier one. -/
def Earlier (received : List PushPayload) (n k k' : ℕ) : Prop :=
  shardAt received n k = shardAt received n k' → k < k'

/-- A log mentions events that were taken, and has the frames 2001 of a shard in order. -/
structure Logged (n : ℕ) (received : List PushPayload) (taken : List ℕ) (log : List LogEntry) : Prop where
  taken : ∀ e ∈ log, ∀ k, e.about k = true → k ∈ taken
  order : (log.filterMap LogEntry.pushed).Pairwise (Earlier received n)

theorem LogEntry.about_of_pushed {e : LogEntry} {k : ℕ} (h : e.pushed = some k) : e.about k = true := by
  unfold LogEntry.pushed at h
  split at h
  · cases h
    exact decide_eq_true rfl
  · cases h

theorem about_kindOf (k index : ℕ) (f : Charge) (call : Call) :
    (LogEntry.frame f (PushState.kindOf index call)).about k = decide (index = k) := by
  cases call <;> rfl

namespace Logged

variable {n : ℕ} {received : List PushPayload} {taken : List ℕ} {log : List LogEntry}

section

variable (h : Logged n received taken log)
include h

theorem mem_taken {k : ℕ} (hk : k ∈ log.filterMap LogEntry.pushed) :
    k ∈ taken := by
  obtain ⟨e, he, hpushed⟩ := mem_filterMap.1 hk
  exact h.taken e he k (LogEntry.about_of_pushed hpushed)

theorem receive (hlt : ∀ k ∈ taken, k < received.length)
    (p : PushPayload) : Logged n (received ++ [p]) taken log := by
  refine ⟨h.taken, h.order.imp_of_mem fun {k k'} hk hk' hearlier ↦ ?_⟩
  rw [Earlier, shardAt_append (hlt k (h.mem_taken hk)), shardAt_append (hlt k' (h.mem_taken hk'))]
  exact hearlier

theorem take (k : ℕ) : Logged n received (taken ++ [k]) log :=
  ⟨fun e he k' hk' ↦ mem_append_left _ (h.taken e he k' hk'), h.order⟩

/-- Nothing is said about an event that was not taken. -/
theorem countP_eq_zero {k : ℕ} (hk : k ∉ taken) :
    log.countP (·.about k) = 0 :=
  List.countP_eq_zero.2 fun e he habout ↦ hk (h.taken e he k habout)

/-- Another goroutine's frame is no event's. -/
theorem other (f : Option Charge) :
    Logged n received taken (log ++ (f.map fun f ↦ LogEntry.frame f .other).toList) := by
  cases f with
  | none =>
    rw [Option.map_none, Option.toList_none, append_nil]
    exact h
  | some f =>
    refine ⟨fun e he k hk ↦ ?_, ?_⟩
    · rcases mem_append.1 he with he | he
      · exact h.taken e he k hk
      · rw [mem_singleton.1 he] at hk
        cases hk
    · rw [filterMap_append]
      exact (append_nil _).symm ▸ h.order

/-- The entry about the last event of a shard. -/
theorem entry {e : LogEntry} {k : ℕ}
    (he : ∀ k', e.about k' = true → k' = k) (hk : k ∈ taken)
    (hlast : ∀ k' ∈ taken, shardAt received n k' = shardAt received n k → k' ≤ k)
    (hnone : log.countP (·.about k) = 0) : Logged n received taken (log ++ [e]) := by
  refine ⟨fun e' he' k' hk' ↦ ?_, ?_⟩
  · rcases mem_append.1 he' with he' | he'
    · exact h.taken e' he' k' hk'
    · rw [mem_singleton.1 he'] at hk'
      exact he k' hk' ▸ hk
  · rw [filterMap_append]
    refine pairwise_append.2 ⟨h.order, ?_, fun k₁ hk₁ k₂ hk₂ hshard ↦ ?_⟩
    · cases hpushed : e.pushed <;> simp [hpushed]
    · obtain ⟨e₂, he₂, hpushed₂⟩ := mem_filterMap.1 hk₂
      rw [mem_singleton.1 he₂] at hpushed₂
      obtain rfl := he k₂ (LogEntry.about_of_pushed hpushed₂)
      obtain ⟨e₁, he₁, hpushed₁⟩ := mem_filterMap.1 hk₁
      refine lt_of_le_of_ne (hlast k₁ (h.mem_taken hk₁) hshard) ?_
      rintro rfl
      exact List.countP_eq_zero.1 hnone e₁ he₁ (LogEntry.about_of_pushed hpushed₁)

end

end Logged

namespace PushState

variable {capacity queueSize : ℕ} {s s' : PushState} {job : Job} {t : Task} {targets : List String}
  {pc : WorkerPc}

/-- What holds of the connections while a worker is at an event. -/
structure TaskOk (s : PushState) (t : Task) : Prop where
  steady : ∀ j ∈ t.steady, j ∈ t.reached ∨ j ∈ s.users.get (s.userId j)
  knownSteady : ∀ j ∈ t.steady, j < s.peers.length
  known : ∀ j ∈ t.reached, j < s.peers.length
  entries : ∀ j, s.entries j t.index =
    if j ∈ t.reached ∧ j ∉ t.pending ∧ s.connId j ≠ t.senderConnId then 1 else 0
  pending : t.pending.Nodup
  found : ∀ j ∈ t.pending, j ∈ t.reached
  targets : t.targets.Nodup
  ahead : ∀ j ∈ t.reached, s.userId j ∉ t.targets

/-- The connection is not the one that sent the message, and its user is in the roster. -/
def Wants (s : PushState) (job : Job) (j : ℕ) : Prop :=
  s.connId j ≠ job.event.senderConnId ∧ s.userId j ∈ job.roster

/-- The user's row covers the message. -/
def Sees (d : Db) (job : Job) (u : String) : Prop :=
  ∃ uc, d.userConversations.get (u, job.event.conversationId) = some uc ∧
    Db.covers uc job.event.message.seq

/-- Who is to get the event is a target still, or was found. -/
def Covers (s : PushState) (job : Job) (targets : List String) : Prop :=
  ∃ d, job.db = some d ∧ ∀ j ∈ job.steady, s.Wants job j → Sees d job (s.userId j) →
    s.userId j ∈ targets ∨ j ∈ job.reached

/-- What a worker knows, by where it stands. -/
def WorkerOk (s : PushState) : WorkerPc → Prop
  | .idle => True
  | .taken index steady =>
    s.TaskOk { index, senderConnId := "", steady, reached := [], pending := [], targets := [] }
  | .resolved job | .listed job => s.TaskOk (job.task [] []) ∧ job.reached = []
  | .found job local_ =>
    s.TaskOk (job.task [] []) ∧ job.reached = [] ∧
      ∀ j ∈ job.steady, s.Wants job j → s.userId j ∈ local_
  | .fanning job targets conns => s.TaskOk (job.task targets conns) ∧ s.Covers job targets
  | .pushing job targets conns o =>
    s.TaskOk (job.task targets (o.client :: conns)) ∧ s.Covers job targets ∧
      s.connId o.client ≠ job.event.senderConnId ∧ o.Fits (s.Closing o.client)
  | .closing job targets conns j =>
    s.TaskOk (job.task targets (j :: conns)) ∧ s.Covers job targets ∧
      s.connId j ≠ job.event.senderConnId

/-- Every connection that was to get a processed event has one entry about it. -/
structure Reported (s : PushState) (job : Job) : Prop where
  known : ∀ j ∈ job.steady, j < s.peers.length
  entry : ∀ j ∈ job.steady, s.Wants job j →
    ∃ d, job.db = some d ∧ (Sees d job (s.userId j) → s.entries j job.index = 1)

/-! ### Others move -/

theorem Wants.knows {j : ℕ} (hknows : Knows s s') (hj : j < s.peers.length) (h : s'.Wants job j) :
    s.Wants job j := by
  rw [Wants, hknows.connId j hj, hknows.userId j hj] at h
  exact h

theorem TaskOk.keeps (h : s.TaskOk t) (hkeeps : Keeps t.index s s') {steady : List ℕ}
    (hsub : steady ⊆ t.steady) (hstay : ∀ j ∈ steady, j ∈ t.reached ∨ j ∈ s'.users.get (s.userId j)) :
    
    s'.TaskOk { t with steady } where
  steady j hj := by
    rw [hkeeps.userId j (h.knownSteady j (hsub hj))]
    exact hstay j hj
  knownSteady j hj := (h.knownSteady j (hsub hj)).trans_le hkeeps.length
  known j hj := (h.known j hj).trans_le hkeeps.length
  entries j := by
    rw [hkeeps.entries, h.entries]
    by_cases hj : j ∈ t.reached
    · rw [hkeeps.connId j (h.known j hj)]
    · rw [if_neg fun hc ↦ hj hc.1, if_neg fun hc ↦ hj hc.1]
  pending := h.pending
  found := h.found
  targets := h.targets
  ahead j hj := by
    rw [hkeeps.userId j (h.known j hj)]
    exact h.ahead j hj

theorem Covers.knows (h : s.Covers job targets) (hknows : Knows s s') {steady : List ℕ}
    (hsub : steady ⊆ job.steady) (hknown : ∀ j ∈ job.steady, j < s.peers.length) :
    s'.Covers { job with steady } targets := by
  obtain ⟨d, hd, hcovers⟩ := h
  refine ⟨d, hd, fun j hj hwants hsees ↦ ?_⟩
  have hlt := hknown j (hsub hj)
  rw [hknows.userId j hlt] at hsees ⊢
  exact hcovers j (hsub hj) (Wants.knows hknows hlt hwants) hsees

/-- A worker can go on when others have moved; of the connections that were there when it took the
event, those count that are still there or were found. -/
theorem WorkerOk.keeps (h : s.WorkerOk pc) (hkeeps : ∀ k ∈ pc.index, Keeps k s s')
    {stay : List ℕ → List ℕ → List ℕ} (hsub : ∀ reached steady, stay reached steady ⊆ steady)
    (hstay : ∀ reached steady, ∀ j ∈ stay reached steady, j ∈ reached ∨
      ∀ u, j ∈ s.users.get u → j ∈ s'.users.get u) : s'.WorkerOk (pc.staying stay) := by
  have htask {t : Task} (ht : s.TaskOk t) (hindex : pc.index = some t.index) :
      s'.TaskOk { t with steady := stay t.reached t.steady } := by
    refine ht.keeps (hkeeps _ hindex) (hsub _ _) fun j hj ↦ ?_
    rcases ht.steady j (hsub _ _ hj) with hreached | hreg
    · exact .inl hreached
    · exact (hstay _ _ j hj).imp id fun hkeep ↦ hkeep _ hreg
  have hcovers {job : Job} {targets : List String} {pending : List ℕ}
      (ht : s.TaskOk (job.task targets pending)) (hindex : pc.index = some job.index)
      (hc : s.Covers job targets) :
      s'.Covers { job with steady := stay job.reached job.steady } targets :=
    hc.knows (hkeeps _ hindex).toKnows (hsub _ _) ht.knownSteady
  cases pc with
  | idle => trivial
  | taken index steady => exact htask h rfl
  | resolved | listed => exact ⟨htask h.1 rfl, h.2⟩
  | found job local_ =>
    refine ⟨htask h.1 rfl, h.2.1, fun j hj hwants ↦ ?_⟩
    have hj' : j ∈ job.steady := hsub _ _ hj
    have hlt := h.1.knownSteady j hj'
    rw [(hkeeps _ rfl).userId j hlt]
    exact h.2.2 j hj' (Wants.knows (hkeeps _ rfl).toKnows hlt hwants)
  | fanning job targets conns => exact ⟨htask h.1 rfl, hcovers h.1 rfl h.2⟩
  | pushing job targets conns o =>
    obtain ⟨ht, hc, hne, hfits⟩ := h
    have hlt := ht.known _ (ht.found _ mem_cons_self)
    refine ⟨htask ht rfl, hcovers ht rfl hc, ?_, hfits.mono ((hkeeps _ rfl).closing _)⟩
    rw [(hkeeps _ rfl).connId _ hlt]
    exact hne
  | closing job targets conns j =>
    obtain ⟨ht, hc, hne⟩ := h
    have hlt := ht.known _ (ht.found _ mem_cons_self)
    refine ⟨htask ht rfl, hcovers ht rfl hc, ?_⟩
    rw [(hkeeps _ rfl).connId _ hlt]
    exact hne

theorem WorkerOk.same (h : s.WorkerOk pc) (hkeeps : ∀ k ∈ pc.index, Keeps k s s')
    (husers : ∀ u, ∀ j ∈ s.users.get u, j ∈ s'.users.get u) : s'.WorkerOk pc :=
  pc.staying_eq ▸ h.keeps hkeeps (fun _ _ ↦ List.Subset.refl _) fun _ _ j _ ↦ .inr fun u ↦ husers u j

theorem Reported.keeps (h : s.Reported job) (hkeeps : Keeps job.index s s') :
    s'.Reported job := by
  refine ⟨fun j hj ↦ (h.known j hj).trans_le hkeeps.length, fun j hj hwants ↦ ?_⟩
  obtain ⟨d, hd, hentry⟩ := h.entry j hj (Wants.knows hkeeps.toKnows (h.known j hj) hwants)
  refine ⟨d, hd, fun hsees ↦ ?_⟩
  rw [hkeeps.userId j (h.known j hj)] at hsees
  rw [hkeeps.entries]
  exact hentry hsees

/-! ### A worker moves -/

/-- Nothing was found yet. -/
theorem TaskOk.of_reached_nil (h : s.TaskOk t) (hnil : t.reached = []) {senderConnId : String}
    (htargets : targets.Nodup) :
    s.TaskOk { t with senderConnId, targets } where
  steady := h.steady
  knownSteady := h.knownSteady
  known := h.known
  entries j := by
    have hnone : j ∉ t.reached := by simp [hnil]
    rw [h.entries, if_neg fun hc ↦ hnone hc.1, if_neg fun hc ↦ hnone hc.1]
  pending := h.pending
  found := h.found
  targets := htargets
  ahead j hj := by simp [hnil] at hj

/-- The sending connection is passed over. -/
theorem TaskOk.skip {j : ℕ} {conns : List ℕ} (h : s.TaskOk t) (hpending : t.pending = j :: conns)
    (hsender : s.connId j = t.senderConnId) : s.TaskOk { t with pending := conns } where
  steady := h.steady
  knownSteady := h.knownSteady
  known := h.known
  entries i := by
    rw [h.entries, hpending]
    by_cases hij : i = j
    · rw [if_neg fun hc ↦ hc.2.2 (hij ▸ hsender), if_neg fun hc ↦ hc.2.2 (hij ▸ hsender)]
    · simp [hij]
  pending := (nodup_cons.1 (hpending ▸ h.pending)).2
  found i hi := h.found i (hpending ▸ mem_cons_of_mem _ hi)
  targets := h.targets
  ahead := h.ahead

/-- The next target: its connections are found. -/
theorem TaskOk.target {target : String} (h : s.TaskOk t) (hconn : s.Connected capacity)
    (hpending : t.pending = []) (htargets : t.targets = target :: targets) :
    s.TaskOk { t with
      reached := t.reached ++ s.users.get target, pending := s.users.get target, targets } := by
  have hnodup := nodup_cons.1 (htargets ▸ h.targets)
  have hnew (j : ℕ) (hj : j ∈ t.reached) : j ∉ s.users.get target := fun hget ↦
    h.ahead j hj (by rw [htargets, (hconn.owner target j hget).2]; exact mem_cons_self)
  refine ⟨fun j hj ↦ ?_, h.knownSteady, fun j hj ↦ ?_, fun j ↦ ?_, hconn.distinct target,
    fun j hj ↦ mem_append_right _ hj, hnodup.2, fun j hj ↦ ?_⟩
  · exact (h.steady j hj).imp (mem_append_left _) id
  · rcases mem_append.1 hj with hj | hj
    · exact h.known j hj
    · exact (hconn.owner target j hj).1
  · rw [h.entries, hpending]
    by_cases hget : j ∈ s.users.get target
    · -- its user comes up now, so it was not found before
      rw [if_neg fun hc ↦ hnew j hc.1 hget, if_neg fun hc ↦ hc.2.1 hget]
    · simp [hget]
  · rcases mem_append.1 hj with hj | hj
    · exact fun hmem ↦ h.ahead j hj (htargets ▸ mem_cons_of_mem _ hmem)
    · rw [(hconn.owner target j hj).2]
      exact hnodup.1

/-- **The worker goes on.** -/
theorem WorkerOk.goes {pc' : WorkerPc} (h : s.WorkerOk pc) (hconn : s.Connected capacity)
    (hgoes : pc.Goes s pc') : s.WorkerOk pc' := by
  cases hgoes with
  | resolve => exact ⟨TaskOk.of_reached_nil h rfl nodup_nil, rfl⟩
  | recipients roster => exact h
  | online =>
    refine ⟨h.1, h.2, fun j hj hwants ↦ ?_⟩
    rcases h.1.steady j hj with hreached | hget
    · change j ∈ Job.reached _ at hreached
      rw [h.2] at hreached
      cases hreached
    · exact UserMap.mem_onlineExcept hwants.2 hget hwants.1
  | visibleTo d =>
    obtain ⟨htask, hnil, hlocal⟩ := h
    refine ⟨htask.of_reached_nil hnil (Db.nodup_visibleOwners _ _ _ _), d, rfl,
      fun j hj hwants hsees ↦ .inl ?_⟩
    exact Db.mem_visibleOwners.2 ⟨hlocal j hj hwants, hsees⟩
  | skip hsender => exact ⟨h.1.skip rfl hsender, h.2⟩
  | push size resync hne => exact ⟨h.1, h.2, hne, (nomatch ·)⟩
  | @target job target targets =>
    obtain ⟨htask, d, hd, hcovers⟩ := h
    refine ⟨htask.target hconn rfl rfl, d, hd, fun j hj hwants hsees ↦ ?_⟩
    rcases hcovers j hj hwants hsees with hmem | hreached
    · rcases mem_cons.1 hmem with heq | hmem
      · rcases htask.steady j hj with hreached | hget
        · exact .inr (mem_append_left _ hreached)
        · exact .inr (mem_append_right _ (heq ▸ hget))
      · exact .inl hmem
    · exact .inr (mem_append_left _ hreached)

/-- **The worker is done.** -/
theorem WorkerOk.ends (h : s.WorkerOk pc) (hends : pc.Ends s job) :
    s.Reported job := by
  cases hends with
  | offline hnone =>
    refine ⟨h.1.knownSteady, fun j hj hwants ↦ ?_⟩
    rcases h.1.steady j hj with hreached | hget
    · change j ∈ job.reached at hreached
      rw [h.2] at hreached
      cases hreached
    · have hmem := UserMap.mem_onlineExcept hwants.2 hget hwants.1
      rw [hnone] at hmem
      cases hmem
  | done =>
    obtain ⟨htask, d, hd, hcovers⟩ := h
    refine ⟨htask.knownSteady, fun j hj hwants ↦ ⟨d, hd, fun hsees ↦ ?_⟩⟩
    rcases hcovers j hj hwants hsees with hmem | hreached
    · cases hmem
    · exact (htask.entries j).trans (if_pos ⟨hreached, not_mem_nil, hwants.1⟩)

/-- **A connection is dealt with**: its log has one more entry about the event. -/
theorem TaskOk.deliver {j : ℕ} {conns : List ℕ} {peer peer' : Peer} (h : s.TaskOk t)
    (hpending : t.pending = j :: conns) (hne : s.connId j ≠ t.senderConnId) (hknows : Knows s s')
    (hpeer : s.peers[j]? = some peer) (hpeers : s'.peers = s.peers.set j peer')
    (husers : s'.users = s.users)
    (hlog : peer'.log.countP (·.about t.index) = peer.log.countP (·.about t.index) + 1) :
    s'.TaskOk { t with pending := conns } := by
  have hnodup := nodup_cons.1 (hpending ▸ h.pending)
  have hreached : j ∈ t.reached := h.found j (hpending ▸ mem_cons_self)
  refine ⟨fun i hi ↦ ?_, fun i hi ↦ (h.knownSteady i hi).trans_le hknows.length,
    fun i hi ↦ (h.known i hi).trans_le hknows.length, fun i ↦ ?_, hnodup.2,
    fun i hi ↦ h.found i (hpending ▸ mem_cons_of_mem _ hi), h.targets, fun i hi ↦ ?_⟩
  · rw [husers, hknows.userId i (h.knownSteady i hi)]
    exact h.steady i hi
  · rw [entries_set hpeer hpeers]
    by_cases hij : i = j
    · have hold := h.entries j
      rw [entries_eq hpeer, hpending, if_neg fun hc ↦ hc.2.1 mem_cons_self] at hold
      rw [if_pos hij, hlog, hold, hij, hknows.connId j (h.known j hreached),
        if_pos ⟨hreached, hnodup.1, hne⟩]
    · rw [if_neg hij, h.entries, hpending]
      by_cases hi : i ∈ t.reached
      · rw [hknows.connId i (h.known i hi)]
        simp [hij]
      · rw [if_neg fun hc ↦ hi hc.1, if_neg fun hc ↦ hi hc.1]
  · rw [hknows.userId i (h.known i hi)]
    exact h.ahead i hi

end PushState

end Nexo.Gateway
