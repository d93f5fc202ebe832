import Nexo.Gateway.PresenceSystem
import Mathlib.Data.List.Perm.Basic

/-!
# The structural invariant of the presence scheduler

Every operation keeps the registry exact, the queue a heap of active subscriptions, the reads in
flight at one for each subscription and four in all, and every active subscription of a live client
queued or in flight (`Scheduled`).

Every part of an operation keeps `Scheduled`; `Sound` adds what holds between two operations:
no active subscription is forgotten (`Covered`), and none is left once the dispatcher has stopped
(`Halted`). For each part of an operation there is one structure that says what it does (`Admitted`,
`Finished`), and the lemmas are about these structures.
-/

namespace Nexo.Gateway

open Machine List

namespace Presence

variable {L : Type} {p p' : Presence L} {c i : ℕ} {now : Int} {frames : L}

/-- The subscriptions with a read in flight, queued for a worker or running. -/
def inFlight (p : Presence L) : List ℕ := (p.jobs ++ p.running).map (·.sub)

/-- **What holds of the scheduler.** -/
structure Scheduled (p : Presence L) : Prop extends Registered p where
  heap : p.due.Ok (key p.subs)
  queued : ∀ i, p.due.Has i → ∃ c, p.active.lookup c = some i
  flight : ∀ i, (p.subs i).cancel = true ↔ i ∈ p.inFlight
  nodup : p.inFlight.Nodup
  alloc : ∀ i ∈ p.inFlight, i < p.fresh
  /-- a read that ends when its client is on the way out leaves the mark to `remove` -/
  remark : ∀ i, (p.subs i).remark = true →
    (p.subs i).cancel = true ∨ p.done (p.subs i).client = true ∨ p.closing = true
  marked : ∀ i, (p.subs i).remark = true → ∃ c, p.active.lookup c = some i
  apart : ∀ i, p.due.Has i → (p.subs i).cancel = false
  reads : p.reads = p.inFlight.length
  slots : p.inFlight.length ≤ onlineRefreshWorkers

/-- Every active subscription of a live client is queued or in flight. -/
def Covered (p : Presence L) : Prop := ∀ c i, p.active.lookup c = some i → p.done c = false →
  p.closing = false → p.stopped = false → p.due.Has i ∨ (p.subs i).cancel = true

/-- A stopped dispatcher leaves nothing active. -/
def Halted (p : Presence L) : Prop := p.stopped = true → ∀ c, p.active.lookup c = none

/-- **The structural invariant.** -/
structure Sound (p : Presence L) : Prop extends Scheduled p where
  covered : p.Covered
  halted : p.Halted

theorem scheduled_new (frames : L) : Scheduled (new frames) where
  toRegistered := registered_new frames
  heap := Heap.ok_empty 0
  queued _ h := absurd h (Heap.not_has_empty 0)
  flight _ := ⟨nofun, nofun⟩
  nodup := nodup_nil
  alloc _ h := nomatch h
  remark _ h := nomatch h
  marked _ h := nomatch h
  apart _ _ := rfl
  reads := rfl
  slots := Nat.zero_le _

/-- **Steps that leave the registry and the reads alone**: they may queue active subscriptions
without a read, and mark those with one. -/
theorem Scheduled.nudge (h : Scheduled p)
    (hframe : p' = { p with subs := p'.subs, due := p'.due, seq := p'.seq, wake := p'.wake })
    (hsubs : ∀ i, (p'.subs i).client = (p.subs i).client ∧
      (p'.subs i).userIds = (p.subs i).userIds ∧ (p'.subs i).cancel = (p.subs i).cancel)
    (hheap : p'.due.Ok (key p'.subs))
    (hnew : ∀ i, p'.due.Has i → p.due.Has i ∨
      (∃ c, p.active.lookup c = some i) ∧ (p.subs i).cancel = false)
    (hremark : ∀ i, (p'.subs i).remark = true → (p.subs i).remark = true ∨
      (∃ c, p.active.lookup c = some i) ∧ (p.subs i).cancel = true) : Scheduled p' := by
  have hactive : p'.active = p.active := by rw [hframe]
  have hflight : p'.inFlight = p.inFlight := by rw [hframe]; rfl
  refine ⟨h.toRegistered.congr (by rw [hframe]) (by rw [hframe]) hactive (by rw [hframe])
    (by rw [hframe]) (fun c hc ↦ by rwa [hframe] at hc) (fun hs ↦ by rwa [hframe] at hs)
    fun i ↦ ⟨(hsubs i).1, (hsubs i).2.1⟩, hheap, fun i hi ↦ ?_, fun i ↦ ?_, ?_, ?_, fun i hi ↦ ?_,
    fun i hi ↦ ?_, fun i hi ↦ ?_, ?_, ?_⟩
  · rw [hactive]
    exact (hnew i hi).elim (h.queued i) And.left
  · rw [(hsubs i).2.2, hflight]
    exact h.flight i
  · rw [hflight]
    exact h.nodup
  · rw [hflight, show p'.fresh = p.fresh by rw [hframe]]
    exact h.alloc
  · rw [(hsubs i).2.2, (hsubs i).1, show p'.done = p.done by rw [hframe],
      show p'.closing = p.closing by rw [hframe]]
    exact (hremark i hi).elim (h.remark i) fun hi ↦ .inl hi.2
  · rw [hactive]
    exact (hremark i hi).elim (h.marked i) And.left
  · rw [(hsubs i).2.2]
    exact (hnew i hi).elim (h.apart i) And.right
  · rw [hflight, show p'.reads = p.reads by rw [hframe]]
    exact h.reads
  · rw [hflight]
    exact h.slots

theorem mark_of_cancel (hcancel : (p.subs i).cancel = true) (now : Int) :
    p.mark (some i) now = p.write i { p.subs i with remark := true } := by
  simp [Presence.mark, hcancel]

theorem mark_of_idle (hcancel : (p.subs i).cancel = false) (now : Int) :
    p.mark (some i) now = p.requeue i now := by
  simp [Presence.mark, hcancel]

theorem mark_frame (hheap : p.due.Ok (key p.subs)) (i : ℕ) (now : Int) :
    p.mark (some i) now = { p with
      subs := (p.mark (some i) now).subs, due := (p.mark (some i) now).due,
      seq := (p.mark (some i) now).seq, wake := (p.mark (some i) now).wake } := by
  rcases hcancel : (p.subs i).cancel with - | -
  · rw [mark_of_idle hcancel]
    exact (requeued hheap i now).frame
  · rw [mark_of_cancel hcancel]
    rfl

theorem mark_core (hheap : p.due.Ok (key p.subs)) (i : ℕ) (now : Int) (j : ℕ) :
    (p.mark (some i) now).subs j = { p.subs j with
      readyAt := ((p.mark (some i) now).subs j).readyAt, seq := ((p.mark (some i) now).subs j).seq,
      remark := ((p.mark (some i) now).subs j).remark } := by
  rcases hcancel : (p.subs i).cancel with - | -
  · rw [mark_of_idle hcancel, (requeued hheap i now).core j]
  · rw [mark_of_cancel hcancel]
    by_cases hji : j = i
    · rw [hji, write_subs_self]
    · rw [write_subs_of_ne hji]

/-- **`mark`** keeps the scheduler in order. -/
theorem Scheduled.mark (h : Scheduled p) (hi : p.active.lookup c = some i) (now : Int) :
    Scheduled (p.mark (some i) now) := by
  rcases hcancel : (p.subs i).cancel with - | -
  · rw [mark_of_idle hcancel]
    have hreq := requeued h.heap i now
    refine h.nudge hreq.frame (fun j ↦ ?_) hreq.heap (fun j hj ↦ ?_) fun j hj ↦ ?_
    · rw [hreq.core j]
      exact ⟨rfl, rfl, rfl⟩
    · refine ((hreq.has j).1 hj).imp_right fun hji ↦ ?_
      rw [hji]
      exact ⟨⟨c, hi⟩, hcancel⟩
    · rw [hreq.core j] at hj
      exact .inl hj
  · rw [mark_of_cancel hcancel]
    refine h.nudge rfl (fun j ↦ ?_) (ok_write h.heap rfl rfl) (fun _ hj ↦ .inl hj) fun j hj ↦ ?_
    · by_cases hji : j = i
      · subst hji
        simp
      · rw [write_subs_of_ne hji]
        exact ⟨rfl, rfl, rfl⟩
    · by_cases hji : j = i
      · exact .inr (hji ▸ ⟨⟨c, hi⟩, hcancel⟩)
      · rw [write_subs_of_ne hji] at hj
        exact .inl hj

/-- Every active subscription but one is queued or in flight. -/
def CoveredBut (p : Presence L) (x : ℕ) : Prop := ∀ c i, i ≠ x → p.active.lookup c = some i →
  p.done c = false → p.closing = false → p.stopped = false →
  p.due.Has i ∨ (p.subs i).cancel = true

/-- `mark` covers the subscription it marks. -/
theorem CoveredBut.mark (h : CoveredBut p i) (hheap : p.due.Ok (key p.subs)) (now : Int) :
    Covered (p.mark (some i) now) := by
  intro c j hj hd hc hs
  rw [mark_frame hheap] at hj hd hc hs
  rcases hcancel : (p.subs i).cancel with - | -
  · rw [mark_of_idle hcancel]
    have hreq := requeued hheap i now
    rw [hreq.has]
    by_cases hji : j = i
    · exact .inl (.inr hji)
    · rw [hreq.other j hji]
      exact (h c j hji hj hd hc hs).imp_left .inl
  · rw [mark_of_cancel hcancel]
    by_cases hji : j = i
    · exact .inr (by rw [hji, write_subs_self]; exact hcancel)
    · rw [write_subs_of_ne hji]
      exact h c j hji hj hd hc hs

theorem Sound.mark (h : Sound p) (hi : p.active.lookup c = some i) (now : Int) :
    Sound (p.mark (some i) now) := by
  refine ⟨h.toScheduled.mark hi now, CoveredBut.mark (fun c j _ ↦ h.covered c j) h.heap now, ?_⟩
  rw [Halted, mark_frame h.heap]
  exact h.halted

theorem Sound.markAll (h : Sound p) (clients : List ℕ) (now : Int) :
    Sound (clients.foldl (fun p c ↦ p.mark (p.active.lookup c) now) p) := by
  induction clients generalizing p with
  | nil => exact h
  | cons c clients ih =>
    refine ih (show Sound (p.mark (p.active.lookup c) now) from ?_)
    rcases hi : p.active.lookup c with - | i
    · exact h
    · exact h.mark hi now

theorem Sound.markOnlineChanged (h : Sound p) (visits : List (List ℕ)) (now : Int) :
    Sound (p.markOnlineChanged visits now) := by
  rw [Presence.markOnlineChanged]
  split
  · exact h
  · exact h.markAll _ now

/-! ### Reads -/

/-- **What `admitHead` does** to the head of the queue. -/
structure Admitted (p : Presence L) (now : Int) (frames : L) (p' : Presence L) : Prop where
  heap : p'.due.Ok (key p'.subs)
  has : ∀ j, p'.due.Has j ↔ p.due.Has j ∧ j ≠ p.due.slot 0
  len : p'.due.len = p.due.len - 1
  other : ∀ j, j ≠ p.due.slot 0 → p'.subs j = p.subs j
  self : p'.subs (p.due.slot 0) = { p.subs (p.due.slot 0) with
    cancel := true, remark := false, nextAttempt := now + onlineRefreshMinInterval }
  jobs : p'.jobs = p.jobs ++ [{ sub := p.due.slot 0, revision := (p.subs (p.due.slot 0)).revision,
                                 userIds := (p.subs (p.due.slot 0)).userIds }]
  frame : p' = { p with subs := p'.subs, due := p'.due, jobs := p'.jobs, reads := p.reads + 1, frames }

theorem Admitted.flight (h : Admitted p now frames p') :
    p'.inFlight.Perm (p.due.slot 0 :: p.inFlight) := by
  rw [inFlight, h.jobs, show p'.running = p.running by rw [h.frame]]
  simp only [inFlight, map_append, map_cons, append_assoc,
    singleton_append]
  exact perm_middle

theorem admitted (hheap : p.due.Ok (key p.subs)) (hlen : 0 < p.due.len)
    (hadmitted : p.admitHead now frames = some p') : Admitted p now frames p' := by
  rw [Presence.admitHead] at hadmitted
  split at hadmitted
  · cases hadmitted
  cases hadmitted
  obtain ⟨hok, hlen', hhas⟩ := hheap.pop hlen
  refine ⟨hok.congr fun j hj ↦ ?_, hhas, hlen', fun j hj ↦ write_subs_of_ne hj, write_subs_self .., rfl,
    rfl⟩
  have hne := ((hhas j).1 hj).2
  simp only [key, write, Function.update_of_ne hne]

theorem Scheduled.admitted (h : Scheduled p) (hlen : 0 < p.due.len)
    (hreads : p.reads ≠ onlineRefreshWorkers) (ha : Admitted p now frames p') : Scheduled p' := by
  have hhead := h.heap.has_head hlen
  have hcancel := h.apart _ hhead
  have hmem (j : ℕ) : j ∈ p'.inFlight ↔ j = p.due.slot 0 ∨ j ∈ p.inFlight := by
    rw [ha.flight.mem_iff, mem_cons]
  have hcore (j : ℕ) : (p'.subs j).client = (p.subs j).client ∧
      (p'.subs j).userIds = (p.subs j).userIds := by
    by_cases hj : j = p.due.slot 0
    · rw [hj, ha.self]
      exact ⟨rfl, rfl⟩
    · rw [ha.other j hj]
      exact ⟨rfl, rfl⟩
  have hactive : p'.active = p.active := by rw [ha.frame]
  have hlength : p'.inFlight.length = p.inFlight.length + 1 := ha.flight.length_eq
  obtain ⟨c₀, hc₀⟩ := h.queued _ hhead
  refine ⟨h.toRegistered.congr (by rw [ha.frame]) (by rw [ha.frame]) hactive (by rw [ha.frame])
    (by rw [ha.frame]) (fun c hc ↦ by rwa [ha.frame] at hc) (fun hs ↦ by rwa [ha.frame] at hs) hcore,
    ha.heap, fun j hj ↦ ?_, fun j ↦ ?_, ?_, fun j hj ↦ ?_, fun j hj ↦ ?_, fun j hj ↦ ?_,
    fun j hj ↦ ?_, ?_, ?_⟩
  · rw [hactive]
    exact h.queued j ((ha.has j).1 hj).1
  · rw [hmem]
    by_cases hj : j = p.due.slot 0
    · simp [hj, ha.self]
    · rw [ha.other j hj, h.flight j]
      simp [hj]
  · rw [ha.flight.nodup_iff, nodup_cons]
    exact ⟨fun hin ↦ by simp [(h.flight _).2 hin] at hcancel, h.nodup⟩
  · rw [show p'.fresh = p.fresh by rw [ha.frame]]
    rcases (hmem j).1 hj with rfl | hj
    · exact (h.current c₀ _ ((h.active c₀ _).1 hc₀).1).1
    · exact h.alloc j hj
  · by_cases hj' : j = p.due.slot 0
    · rw [hj', ha.self] at hj
      cases hj
    · rw [ha.other j hj'] at hj ⊢
      rw [ha.frame]
      exact h.remark j hj
  · rw [hactive]
    by_cases hj' : j = p.due.slot 0
    · exact hj' ▸ ⟨c₀, hc₀⟩
    · rw [ha.other j hj'] at hj
      exact h.marked j hj
  · obtain ⟨hj, hne⟩ := (ha.has j).1 hj
    rw [ha.other j hne]
    exact h.apart j hj
  · rw [hlength, show p'.reads = p.reads + 1 by rw [ha.frame], h.reads]
    rfl
  · have hle := h.slots
    rw [h.reads] at hreads
    rw [hlength]
    omega

theorem Sound.admitted (h : Sound p) (hlen : 0 < p.due.len)
    (hreads : p.reads ≠ onlineRefreshWorkers) (ha : Admitted p now frames p') : Sound p' := by
  refine ⟨h.toScheduled.admitted hlen hreads ha, fun c j hj hd hc hs ↦ ?_, fun hs c ↦ ?_⟩
  · rw [ha.frame] at hj hd hc hs
    by_cases hj' : j = p.due.slot 0
    · rw [hj', ha.self]
      exact .inr rfl
    · rw [ha.other j hj', ha.has]
      exact (h.covered c j hj hd hc hs).imp_left fun hq ↦ ⟨hq, hj'⟩
  · rw [ha.frame] at hs ⊢
    exact h.halted hs c

/-- **The send to `jobs` never blocks.** -/
theorem Scheduled.exists_admit (h : Scheduled p) (hreads : p.reads ≠ onlineRefreshWorkers)
    (now : Int) (frames : L) : ∃ p', p.admitHead now frames = some p' := by
  have hjobs : p.jobs.length < onlineRefreshWorkers := by
    have hle := h.slots
    rw [h.reads] at hreads
    rw [inFlight, length_map, length_append] at hle hreads
    omega
  rw [Presence.admitHead, if_neg (Nat.not_le.2 hjobs)]
  exact ⟨_, rfl⟩

/-- **What `finishOnlineRead` does** to subscription `i`, which is not queued; `running` is what the
other workers are busy with. -/
structure Finished (p : Presence L) (running : List OnlineRead) (i : ℕ) (now : Int)
    (p' : Presence L) : Prop where
  heap : p'.due.Ok (key p'.subs)
  other : ∀ j, j ≠ i → p'.subs j = p.subs j
  core : p'.subs i = { p.subs i with
    cancel := false, readyAt := (p'.subs i).readyAt, seq := (p'.subs i).seq,
    remark := (p'.subs i).remark, lastSuccess := (p'.subs i).lastSuccess }
  skip : p.adopts i = false → p'.due = p.due ∧ p'.seq = p.seq ∧
    p'.subs i = { p.subs i with cancel := false }
  adopt : p.adopts i = true → (∀ j, p'.due.Has j ↔ p.due.Has j ∨ j = i) ∧ p'.seq = p.seq + 1 ∧
    (p'.subs i).seq = p.seq ∧ (p'.subs i).remark = false ∧
    (p'.subs i).readyAt = clamp (p.subs i)
      (if (p.subs i).remark then now else now + onlineSnapshotInterval)
  frame : p' = { p with
    subs := p'.subs, due := p'.due, seq := p'.seq, wake := true, reads := p.reads - 1, running }

theorem Finished.lastSuccess {running : List OnlineRead} (h : Finished p running i now p')
    (hadopts : p.adopts i = true) (time : Int) :
    Finished p running i now (p'.write i { p'.subs i with lastSuccess := time }) where
  heap := ok_write h.heap rfl rfl
  other j hj := (write_subs_of_ne hj).trans (h.other j hj)
  core := by rw [write_subs_self, h.core]
  skip hskip := absurd hadopts (by simp [hskip])
  adopt _ := by
    rw [write_subs_self]
    exact h.adopt hadopts
  frame := by
    rw [h.frame]
    rfl

theorem Finished.rearm (hheap : p.due.Ok (key p.subs)) (hq : ¬ p.due.Has i)
    (hadopts : p.adopts i = true) :
    Finished p p.running i now
      ((p.write i { p.subs i with cancel := false }).rearm i now).freeSlot := by
  obtain ⟨q, hq'⟩ : ∃ q, q = p.write i { p.subs i with cancel := false, remark := false } := ⟨_, rfl⟩
  have hrearm : (p.write i { p.subs i with cancel := false }).rearm i now = q.requeue i
      (if (p.subs i).remark then now else now + onlineSnapshotInterval) := by
    simp [Presence.rearm, hq', write]
  have hqi : q.subs i = { p.subs i with cancel := false, remark := false } := by
    rw [hq', write_subs_self]
  have hqj (j : ℕ) (hj : j ≠ i) : q.subs j = p.subs j := by rw [hq', write_subs_of_ne hj]
  have hqdue : q.due = p.due := by rw [hq']; rfl
  have hreq : Requeued q i _ _ := requeued (hq' ▸ ok_write hheap rfl rfl) i
    (if (p.subs i).remark then now else now + onlineSnapshotInterval)
  rw [← hrearm] at hreq
  generalize (p.write i { p.subs i with cancel := false }).rearm i now = p' at hreq
  obtain ⟨hok, hhas, hother, hself, hready, hmark, hseq, -, hframe⟩ := hreq
  rw [hqdue, if_neg hq, hqi] at hready
  rw [hqdue, if_neg hq] at hmark hseq
  rw [hqi] at hself
  refine ⟨hok, fun j hj ↦ (hother j hj).trans (hqj j hj), ?_, fun hskip ↦ absurd hadopts (by simp [hskip]),
    fun _ ↦ ⟨fun j ↦ hqdue ▸ hhas j, ?_, ?_, ?_, hready⟩, ?_⟩
  · rw [show p'.freeSlot.subs = p'.subs from rfl, hself]
  · exact hseq.trans (by rw [hq']; rfl)
  · exact hmark.trans (by rw [hq']; rfl)
  · show (p'.subs i).remark = false
    rw [hself]
  · rw [freeSlot, notify, hframe, hq']
    rfl

theorem adopts_eq_true : p.adopts i = true ↔ p.stopped = false ∧ p.closing = false ∧
    p.done (p.subs i).client = false ∧ p.onlineSub (p.subs i).client = some i ∧
    (p.subs i).userIds ≠ [] := by
  simp [adopts, and_assoc]

theorem finished {ι : Type} {job : OnlineRead} {result : Option (List ι)}
    (hheap : p.due.Ok (key p.subs)) (hq : ¬ p.due.Has job.sub) :
    Finished p p.running job.sub now (p.finishOnlineRead job result now).1 := by
  have hadopts : (p.write job.sub { p.subs job.sub with cancel := false }).adopts job.sub =
      p.adopts job.sub := by simp [adopts, write]
  simp only [finishOnlineRead, hadopts]
  by_cases ha : p.adopts job.sub = true
  · have hrearm : Finished p p.running job.sub now ((p.write job.sub
      { p.subs job.sub with cancel := false }).rearm job.sub now).freeSlot := .rearm hheap hq ha
    rw [if_neg (not_not.2 ha)]
    split
    · exact hrearm
    cases result with
    | none =>
      dsimp only
      split <;> exact hrearm
    | some items => exact hrearm.lastSuccess ha now
  · rw [if_pos ha]
    refine ⟨ok_write hheap rfl rfl, fun j hj ↦ write_subs_of_ne hj, ?_, fun _ ↦ ⟨rfl, rfl, ?_⟩,
      fun hadopt ↦ absurd hadopt ha, rfl⟩
    · exact (write_subs_self ..).trans (by simp [freeSlot, notify])
    · exact write_subs_self ..

section Finish

variable {ι : Type} {job : OnlineRead} {result : Option (List ι)} {k : ℕ}

/-- A finished job leaves the reads in flight. -/
theorem Finished.flight (hk : p.running[k]? = some job)
    (hf : Finished p (p.running.eraseIdx k) job.sub now p') :
    p.inFlight.Perm (job.sub :: p'.inFlight) := by
  obtain ⟨hlt, rfl⟩ := List.getElem?_eq_some_iff.1 hk
  have hrunning := (getElem_cons_eraseIdx_perm hlt).symm
  rw [hf.frame]
  exact ((hrunning.append_left p.jobs).trans perm_middle).map _

theorem mem_inFlight_of_running (hk : p.running[k]? = some job) : job.sub ∈ p.inFlight :=
  mem_map_of_mem (mem_append_right _ (mem_of_getElem? hk))

/-- A subscription with a running read is not queued. -/
theorem Scheduled.not_has_running (h : Scheduled p) (hk : p.running[k]? = some job) :
    ¬ p.due.Has job.sub := by
  intro hhas
  have hcancel := (h.flight job.sub).2 (mem_inFlight_of_running hk)
  rw [h.apart _ hhas] at hcancel
  cases hcancel

theorem Scheduled.finished (h : Scheduled p) (hk : p.running[k]? = some job) :
    Finished p (p.running.eraseIdx k) job.sub now
      (({ p with running := p.running.eraseIdx k }).finishOnlineRead job result now).1 := by
  have hf : Finished { p with running := p.running.eraseIdx k } (p.running.eraseIdx k) job.sub now
      (({ p with running := p.running.eraseIdx k }).finishOnlineRead job result now).1 :=
    Presence.finished h.heap (h.not_has_running hk)
  exact ⟨hf.heap, hf.other, hf.core, hf.skip, hf.adopt, hf.frame⟩

variable (h : Scheduled p) (hk : p.running[k]? = some job)
  (hf : Finished p (p.running.eraseIdx k) job.sub now p')

include hf

theorem Finished.client (j : ℕ) : (p'.subs j).client = (p.subs j).client ∧
    (p'.subs j).userIds = (p.subs j).userIds := by
  by_cases hj : j = job.sub
  · rw [hj, hf.core]
    exact ⟨rfl, rfl⟩
  · rw [hf.other j hj]
    exact ⟨rfl, rfl⟩

/-- An adopted read queues its subscription. -/
theorem Finished.has (j : ℕ) :
    p'.due.Has j ↔ p.due.Has j ∨ j = job.sub ∧ p.adopts job.sub = true := by
  by_cases ha : p.adopts job.sub = true
  · rw [(hf.adopt ha).1 j]
    simp [ha]
  · rw [(hf.skip (by simpa using ha)).1]
    simp [ha]

/-- A read that leaves its subscription queued was adopted. -/
theorem Finished.adopts_of_has (h : Scheduled p) (hk : p.running[k]? = some job)
    (hhas : p'.due.Has job.sub) : p.adopts job.sub = true :=
  ((hf.has job.sub).1 hhas).elim (fun hold ↦ absurd hold (h.not_has_running hk)) And.right

/-- A mark that is left belongs to a read that was not adopted. -/
theorem Finished.remark {j : ℕ} (hj : (p'.subs j).remark = true) :
    (p.subs j).remark = true ∧ (j = job.sub → p.adopts job.sub = false) := by
  by_cases hji : j = job.sub
  · subst hji
    have ha : p.adopts job.sub = false := by
      by_contra ha
      rw [(hf.adopt (by simpa using ha)).2.2.2.1] at hj
      cases hj
    rw [(hf.skip ha).2.2] at hj
    exact ⟨hj, fun _ ↦ ha⟩
  · rw [hf.other j hji] at hj
    exact ⟨hj, fun heq ↦ absurd heq hji⟩

include h

theorem Finished.covered (hc : Covered p) : Covered p' := by
  intro c j hj hd hcl hs
  rw [hf.frame] at hj hd hcl hs
  rw [hf.has]
  by_cases hji : j = job.sub
  · obtain ⟨hcur, hne⟩ := (h.active c j).1 hj
    obtain ⟨-, hclient⟩ := h.current c j hcur
    subst hji
    exact .inl (.inr ⟨rfl, adopts_eq_true.2 ⟨hs, hcl, by rwa [hclient], by rwa [hclient], hne⟩⟩)
  · rw [hf.other j hji]
    exact (hc c j hj hd hcl hs).imp_left .inl

include hk

/-- **`finishOnlineRead`** keeps the scheduler in order. -/
theorem Scheduled.finish (hhalted : p.Halted) : Scheduled p' := by
  have hperm := hf.flight hk
  have hactive : p'.active = p.active := by rw [hf.frame]
  have hself : (p'.subs job.sub).cancel = false := by rw [hf.core]
  have hnodup : job.sub ∉ p'.inFlight ∧ p'.inFlight.Nodup :=
    nodup_cons.1 (hperm.nodup_iff.1 h.nodup)
  have hlength : p.inFlight.length = p'.inFlight.length + 1 := hperm.length_eq
  refine ⟨h.toRegistered.congr (by rw [hf.frame]) (by rw [hf.frame]) hactive (by rw [hf.frame])
    (by rw [hf.frame]) (fun c hc ↦ by rwa [hf.frame] at hc) (fun hs ↦ by rwa [hf.frame] at hs)
    hf.client, hf.heap, fun j hj ↦ ?_, fun j ↦ ?_, hnodup.2, fun j hj ↦ ?_, fun j hj ↦ ?_,
    fun j hj ↦ ?_, fun j hj ↦ ?_, ?_, ?_⟩
  · rw [hactive]
    rcases (hf.has j).1 hj with hj | ⟨rfl, ha⟩
    · exact h.queued j hj
    · obtain ⟨-, -, -, hcur, hne⟩ := adopts_eq_true.1 ha
      exact ⟨_, (h.active _ _).2 ⟨hcur, hne⟩⟩
  · by_cases hj : j = job.sub
    · simp [hj, hself, hnodup.1]
    · rw [hf.other j hj, h.flight j, hperm.mem_iff, mem_cons]
      simp [hj]
  · rw [show p'.fresh = p.fresh by rw [hf.frame]]
    exact h.alloc j (hperm.mem_iff.2 (mem_cons_of_mem _ hj))
  · rw [show p'.done = p.done by rw [hf.frame], show p'.closing = p.closing by rw [hf.frame],
      (hf.client j).1]
    by_cases hji : j = job.sub
    · subst hji
      obtain ⟨hmark, hskip⟩ := hf.remark hj
      obtain ⟨c, hc⟩ := h.marked _ hmark
      obtain ⟨hcur, hne⟩ := (h.active c _).1 hc
      obtain ⟨-, hclient⟩ := h.current c _ hcur
      have hrun : p.stopped = false := by
        by_contra hs
        rw [hhalted (by simpa using hs) c] at hc
        cases hc
      refine .inr ?_
      by_contra hlive
      simp only [not_or, Bool.not_eq_true] at hlive
      rw [adopts_eq_true.2 ⟨hrun, hlive.2, hlive.1, by rwa [hclient], hne⟩] at hskip
      cases hskip rfl
    · rw [hf.other j hji] at hj ⊢
      exact h.remark j hj
  · rw [hactive]
    exact h.marked j (hf.remark hj).1
  · by_cases hji : j = job.sub
    · exact hji ▸ hself
    · rw [hf.other j hji]
      exact h.apart j (((hf.has j).1 hj).resolve_right fun hj ↦ hji hj.1)
  · rw [show p'.reads = p.reads - 1 by rw [hf.frame], h.reads, hlength]
    omega
  · have hle := h.slots
    omega

end Finish

theorem Sound.finish {ι : Type} {job : OnlineRead} {result : Option (List ι)} {k : ℕ} (h : Sound p)
    (hk : p.running[k]? = some job) :
    Sound (({ p with running := p.running.eraseIdx k }).finishOnlineRead job result now).1 := by
  have hf : Finished p (p.running.eraseIdx k) job.sub now
      (({ p with running := p.running.eraseIdx k }).finishOnlineRead job result now).1 :=
    h.toScheduled.finished hk
  refine ⟨h.toScheduled.finish hk hf h.halted, hf.covered h.toScheduled h.covered, fun hs c ↦ ?_⟩
  rw [hf.frame] at hs ⊢
  exact h.halted hs c

end Presence

end Nexo.Gateway
