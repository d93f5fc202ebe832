import Nexo.Gateway.Snapshots
import Nexo.Guarantees.Presence

/-!
# Presence snapshots are safe

Whatever reads return, and however late, a connection is only sent frames of the revision that it
has at that moment, with the items of a read that was started for that revision and its set. The
object of a subscription is reused by every revision of its client, so this rests on three things: a
read knows the revision it was started for, revisions only grow, and `lastSuccess` is cleared with
every new revision. What a worker is about to enqueue stays true until it does, because nothing it
depends on changes without `onlineSubs.mu`.
-/

namespace Nexo.Gateway

open Machine List Function Option

namespace Presence

variable {L ι : Type} {env : OnlineEnv L} {p p' : Presence L} {c i j : ℕ} {now : Int}

/-! ### What `finishOnlineRead` assembles -/

/-- A frame that the end of a read of `job` may give, for a subscription with this `lastSuccess`. -/
structure Assembled (job : OnlineRead) (result : Option (List ι)) (now lastSuccess : Int)
    (frame : OnlineSnapshot ι) : Prop where
  revision : frame.revision = job.revision
  fresh : frame.stale = false → result = some frame.items
  stale : frame.stale = true → result = none ∧ frame.items = [] ∧ lastSuccess ≠ 0 ∧
    onlineStaleAfter ≤ now - lastSuccess

theorem rearm_core (hheap : p.due.Ok (key p.subs)) (i : ℕ) (now : Int) :
    (p.rearm i now).subs i = { p.subs i with
      remark := false, readyAt := ((p.rearm i now).subs i).readyAt,
      seq := ((p.rearm i now).subs i).seq } := by
  have hheap' : (p.write i { p.subs i with remark := false }).due.Ok
      (key (p.write i { p.subs i with remark := false }).subs) := ok_write hheap rfl rfl
  have hself := (requeued hheap' i
    (if (p.subs i).remark then now else now + onlineSnapshotInterval)).self
  rwa [write_subs_self] at hself

/-- **What a finished read leaves**: the frame, and the time of its success. -/
theorem finishOnlineRead_spec (hheap : p.due.Ok (key p.subs)) (job : OnlineRead)
    (result : Option (List ι)) (now : Int) :
    (∀ frame, (p.finishOnlineRead job result now).2 = some frame → p.adopts job.sub = true ∧
      (p.subs job.sub).revision = job.revision ∧
      Assembled job result now (p.subs job.sub).lastSuccess frame) ∧
    ((p.finishOnlineRead job result now).1.subs job.sub).lastSuccess =
      if p.adopts job.sub = true ∧ (p.subs job.sub).revision = job.revision ∧ result.isSome then now
      else (p.subs job.sub).lastSuccess := by
  have hadopts : (p.write job.sub { p.subs job.sub with cancel := false }).adopts job.sub =
      p.adopts job.sub := by simp [adopts, write]
  have hheap' : (p.write job.sub { p.subs job.sub with cancel := false }).due.Ok
    (key (p.write job.sub { p.subs job.sub with cancel := false }).subs) := ok_write hheap rfl rfl
  have hcore := rearm_core hheap' job.sub now
  rw [write_subs_self] at hcore
  simp only [finishOnlineRead, hadopts]
  generalize (p.write job.sub { p.subs job.sub with cancel := false }).rearm job.sub now = q at hcore
  have hrevision : (q.subs job.sub).revision = (p.subs job.sub).revision := by rw [hcore]
  have hlast : (q.subs job.sub).lastSuccess = (p.subs job.sub).lastSuccess := by rw [hcore]
  by_cases ha : p.adopts job.sub = true
  · rw [if_neg (not_not.2 ha), hrevision, hlast]
    by_cases hrev : (p.subs job.sub).revision = job.revision
    · rw [if_neg (not_not.2 hrev)]
      cases result with
      | none =>
        dsimp only
        split
        next => exact ⟨fun _ h ↦ (by cases h), by simpa [freeSlot, notify] using hlast⟩
        next hstale =>
          refine ⟨fun frame hframe ↦ ?_, by simpa [freeSlot, notify] using hlast⟩
          cases hframe
          refine ⟨ha, hrev, hrev, fun h ↦ (by cases h), fun _ ↦ ⟨rfl, rfl, ?_⟩⟩
          omega
      | some items =>
        refine ⟨fun frame hframe ↦ ?_, by simp [freeSlot, notify, ha, hrev]⟩
        cases hframe
        exact ⟨ha, hrev, hrev, fun _ ↦ rfl, fun h ↦ by cases h⟩
    · rw [if_pos hrev]
      refine ⟨fun _ h ↦ (by cases h), ?_⟩
      rw [if_neg fun h ↦ hrev h.2.1]
      exact hlast
  · rw [if_pos ha]
    refine ⟨fun _ h ↦ (by cases h), ?_⟩
    rw [if_neg fun h ↦ ha h.1]
    simp [freeSlot, notify]

/-! ### Reads and their successes -/

/-- The last success of a read of a revision. -/
def latest (successes : List Success) (c : ℕ) (revision : Int) : Option Success :=
  successes.find? fun x ↦ x.client = c ∧ x.revision = revision

/-- `lastSuccess`, from the history. -/
def latestTime (successes : List Success) (c : ℕ) (revision : Int) : Int :=
  ((latest successes c revision).map (·.time)).getD 0

/-- **Reads know their revision.** -/
structure Traced (p : Presence L) (successes : List Success) : Prop where
  jobs : ∀ job ∈ p.jobs ++ p.running, job.revision ≤ (p.subs job.sub).revision ∧
    (job.revision = (p.subs job.sub).revision → job.userIds = (p.subs job.sub).userIds)
  reads : ∀ x ∈ successes, ∃ i < p.fresh, (p.subs i).client = x.client ∧
    x.revision ≤ (p.subs i).revision
  last : ∀ i < p.fresh, p.Live (p.subs i).client → (p.subs i).userIds ≠ [] →
    (p.subs i).lastSuccess = latestTime successes (p.subs i).client (p.subs i).revision

variable {successes : List Success}

section

variable (ht : Traced p successes) {e : PresenceEvent ι} {entries : List PresenceEntry}
include ht

/-- A new revision has no success yet. -/
theorem Traced.latest_of_accepted {req : SubscriptionRequest} (h : Sound p)
    (ha : Accepted p c req now i p') : latestTime successes c req.revision = 0 := by
  have hnone : latest successes c req.revision = none := by
    refine find?_eq_none.2 fun x hx hmatch ↦ ?_
    obtain ⟨hclient, hrevision⟩ : x.client = c ∧ x.revision = req.revision := by simpa using hmatch
    obtain ⟨j, hj, hclient', hle⟩ := ht.reads x hx
    by_cases hji : j = i
    · subst hji
      have hlt := ha.revision
      rw [prepared_subs hj] at hlt
      omega
    · exact (ha.client_ne h (hj.trans_le (ha.grows h).fresh) hji).2 (hclient'.trans hclient)
  rw [latestTime, hnone]
  rfl

theorem Traced.step_jobs {job : OnlineRead} (h : Sound p) (hstep : Step p e entries p')
    (hmem : job ∈ p'.jobs ++ p'.running) : job.revision ≤ (p'.subs job.sub).revision ∧
      (job.revision = (p'.subs job.sub).revision → job.userIds = (p'.subs job.sub).userIds) := by
  -- what a read knows was true of an allocated object
  obtain ⟨hlt, hle, hids⟩ : job.sub < p.fresh ∧ job.revision ≤ (p.subs job.sub).revision ∧
      (job.revision = (p.subs job.sub).revision → job.userIds = (p.subs job.sub).userIds) := by
    rcases hstep.jobs h hmem with hold | ⟨hhas, hrevision, hids, -⟩
    · exact ⟨h.alloc _ (mem_map_of_mem hold), ht.jobs job hold⟩
    · obtain ⟨c, hc⟩ := h.queued _ hhas
      exact ⟨h.lt_fresh hc, hrevision.le, fun _ ↦ hids⟩
  rcases (hstep.revision h hlt).2 with ⟨hsame, hids'⟩ | hlt'
  · rw [hsame, hids']
    exact ⟨hle, hids⟩
  · exact ⟨by omega, fun heq ↦ by omega⟩

theorem Traced.step_reads (h : Sound p) (hstep : Step p e entries p') {x : Success}
    (hx : x ∈ successes) : ∃ i < p'.fresh, (p'.subs i).client = x.client ∧
      x.revision ≤ (p'.subs i).revision := by
  obtain ⟨i, hi, hclient, hle⟩ := ht.reads x hx
  obtain ⟨hclient', hrevision⟩ := hstep.revision h hi
  refine ⟨i, hi.trans_le (hstep.grows h).fresh, hclient'.trans hclient, ?_⟩
  rcases hrevision with ⟨hsame, -⟩ | hlt
  · exact hsame ▸ hle
  · omega

/-- Steps other than the end of a read. -/
theorem Traced.step (h : Sound p) (hstep : Step p e entries p')
    (hfinish : ∀ k result now, e ≠ .finish k result now) :
    Traced p' successes := by
  refine ⟨fun job hmem ↦ ht.step_jobs h hstep hmem, fun x hx ↦ ht.step_reads h hstep hx,
    fun j hj hlive hne ↦ ?_⟩
  have hsound := h.step hstep
  have hlive₀ := (hstep.grows h).live hlive
  cases hstep.effect h hj with
  | same hj hsub =>
    rw [hsub] at hne hlive₀ ⊢
    exact ht.last j hj hlive₀ hne
  | nudged hj hnudge =>
    rw [hnudge.core] at hne hlive₀ ⊢
    exact ht.last j hj hlive₀ hne
  | @revised c req now ha hr =>
    have hclient : (p'.subs j).client = c :=
      (hsound.current c j (by rw [(ha.frame h).2.1]; exact ha.sub)).2
    rw [hclient, hr.core]
    exact (ht.latest_of_accepted h ha).symm
  | admitted hj hlen hhead hready ha =>
    subst hhead
    rw [ha.self] at hne hlive₀ ⊢
    exact ht.last _ hj hlive₀ hne
  | finished => exact absurd rfl (hfinish _ _ _)
  | dropped hj hsub hhas hdead =>
    rw [hsub] at hlive
    simp [hlive.1, hlive.2.2] at hdead

end

theorem latestTime_cons (x : Success) (successes : List Success) (c : ℕ) (revision : Int) :
    latestTime (x :: successes) c revision =
      if x.client = c ∧ x.revision = revision then x.time else latestTime successes c revision := by
  rw [latestTime, latest, find?_cons]
  by_cases hx : x.client = c ∧ x.revision = revision
  · simp [hx]
  · rw [if_neg hx, decide_eq_false hx]
    rfl

/-- **The end of a read.** -/
theorem Traced.finish {k : ℕ} {job : OnlineRead} {result : Option (List ι)}
    (ht : Traced p successes) (h : Sound p) (hk : p.running[k]? = some job) (now : Int) :
    Traced (finishOnlineRead { p with running := p.running.eraseIdx k } job result now).1
      (if result.isSome then ⟨(p.subs job.sub).client, job.revision, now⟩ :: successes
        else successes) := by
  have hstep : Step p (.finish k result now) _ _ := .finished hk
  have hmem : job ∈ p.jobs ++ p.running := mem_append_right _ (mem_of_getElem? hk)
  have hlt := h.alloc _ (mem_map_of_mem hmem)
  have hspec := (finishOnlineRead_spec (p := { p with running := p.running.eraseIdx k }) h.heap job
    result now).2
  generalize (finishOnlineRead { p with running := p.running.eraseIdx k } job result now).1 = q
    at hstep hspec
  generalize hentry : [PresenceEntry.finished (p.subs job.sub).client now] = entries at hstep
  refine ⟨fun job hmem ↦ ht.step_jobs h hstep hmem, fun x hx ↦ ?_, fun j hj hlive hne ↦ ?_⟩
  · have hold (hx : x ∈ successes) := ht.step_reads h hstep hx
    split at hx
    · rcases mem_cons.1 hx with rfl | hx
      · obtain ⟨hclient, hrevision⟩ := hstep.revision h hlt
        refine ⟨job.sub, hlt.trans_le (hstep.grows h).fresh, hclient, ?_⟩
        have hle := (ht.jobs job hmem).1
        dsimp only
        omega
      · exact hold hx
    · exact hold hx
  · have hlive₀ := (hstep.grows h).live hlive
    cases hstep.effect h hj with
    | same hj hsub hhas hentries =>
      have hother : (p.subs job.sub).client ≠ (p.subs j).client :=
        hentries (.finished _ now) (hentry ▸ mem_singleton_self _)
      rw [hsub] at hne hlive₀ ⊢
      rw [ht.last j hj hlive₀ hne]
      split
      · rw [latestTime_cons, if_neg fun hx ↦ hother hx.1]
      · rfl
    | @finished _ job' _ _ hj hk' hjob hf =>
      obtain rfl : job = job' := some.inj (hk.symm.trans hk')
      subst hjob
      rw [hf.core] at hne hlive₀
      have hadopts : p.adopts job.sub = true :=
        adopts_eq_true.2 ⟨hlive₀.2.2, hlive₀.2.1, hlive₀.1, h.live _ hj hlive₀.1 hlive₀.2.2, hne⟩
      have hlast := ht.last _ hj hlive₀ hne
      rw [hspec, hf.core]
      dsimp only
      rcases result with - | items
      · simpa using hlast
      · rw [if_pos isSome_some, latestTime_cons, hlast]
        by_cases hrev : job.revision = (p.subs job.sub).revision
        · rw [if_pos ⟨hadopts, hrev.symm, rfl⟩, if_pos ⟨rfl, hrev⟩]
        · rw [if_neg fun hx ↦ hrev hx.2.1.symm, if_neg fun hx ↦ hrev hx.2]
    | dropped hj hsub hhas hdead =>
      rw [hsub] at hlive
      simp [hlive.1, hlive.2.2] at hdead

/-- **What a worker is about to enqueue.** -/
structure Current (p : Presence L) (successes : List Success) (h : Held ι) : Prop where
  sub : p.onlineSub h.client = some h.job.sub
  revision : (p.subs h.job.sub).revision = h.frame.revision
  userIds : h.job.userIds = (p.subs h.job.sub).userIds
  nonempty : (p.subs h.job.sub).userIds ≠ []
  stopped : p.stopped = false
  assembled : ∃ last, Assembled h.job h.result h.now last h.frame ∧
    (h.frame.stale = true → ∃ x, latest successes h.client h.frame.revision = some x ∧ x.time = last)

theorem Current.of_finish {k : ℕ} {job : OnlineRead} {result : Option (List ι)}
    {frame : OnlineSnapshot ι} (ht : Traced p successes) (h : Sound p)
    (hk : p.running[k]? = some job) (now : Int)
    (hframe : (finishOnlineRead { p with running := p.running.eraseIdx k } job result now).2 =
      some frame) :
    Current (finishOnlineRead { p with running := p.running.eraseIdx k } job result now).1
      (if result.isSome then ⟨(p.subs job.sub).client, job.revision, now⟩ :: successes
        else successes)
      ⟨(p.subs job.sub).client, job, result, now, frame⟩ := by
  have hmem : job ∈ p.jobs ++ p.running := mem_append_right _ (mem_of_getElem? hk)
  have hlt := h.alloc _ (mem_map_of_mem hmem)
  obtain ⟨hadopts, hrevision, hassembled⟩ :=
    (finishOnlineRead_spec (p := { p with running := p.running.eraseIdx k }) h.heap job
      result now).1 frame hframe
  obtain ⟨hs, hc, hd, hsub, hne⟩ := adopts_eq_true.1 hadopts
  have hf : Finished p (p.running.eraseIdx k) job.sub now
    (finishOnlineRead { p with running := p.running.eraseIdx k } job result now).1 :=
      h.toScheduled.finished hk
  generalize (finishOnlineRead { p with running := p.running.eraseIdx k } job result now).1 = q at hf
  refine ⟨?_, ?_, ?_, ?_, ?_, _, hassembled, fun hstale ↦ ?_⟩
  · rw [hf.frame]
    exact hsub
  · rw [hf.core]
    exact hrevision.trans hassembled.revision.symm
  · rw [hf.core]
    exact (ht.jobs job hmem).2 hrevision.symm
  · rw [hf.core]
    exact hne
  · rw [hf.frame]
    exact hs
  · -- a failed read is no success, and `lastSuccess` is not the zero time
    obtain ⟨rfl, -, hlast, -⟩ := hassembled.stale hstale
    have htime := ht.last job.sub hlt ⟨hd, hc, hs⟩ hne
    rw [if_neg (by simp), hassembled.revision, ← hrevision]
    dsimp only
    rcases hlatest : latest successes (p.subs job.sub).client (p.subs job.sub).revision with - | x
    · rw [latestTime, hlatest] at htime
      exact absurd htime hlast
    · rw [latestTime, hlatest] at htime
      exact ⟨x, rfl, htime.symm⟩

/-- What a worker holds does not depend on contexts, nor on which worker has which job. -/
theorem Current.congr {h : Held ι} (hc : Current p successes h) (hsubs : p'.subs = p.subs)
    (honline : p'.onlineSub = p.onlineSub) (hstopped : p'.stopped = p.stopped) :
    Current p' successes h := by
  obtain ⟨h₁, h₂, h₃, h₄, h₅, h₆⟩ := hc
  exact ⟨honline ▸ h₁, hsubs ▸ h₂, hsubs ▸ h₃, hsubs ▸ h₄, hstopped ▸ h₅, h₆⟩

end Presence

/-! ### What connections were sent -/

/-- The revision of a presence frame. -/
def OutFrame.revision? {ι : Type} : OutFrame ι → Option Int
  | .onlineChanged f => some f.revision
  | .kickOnline | .other => none

/-- Has the drain removed the subscription? -/
def DrainPc.gone : DrainPc → Bool
  | .idle | .begun _ => false
  | .removed _ | .finished => true

namespace SnapshotRun

open Presence

variable {L ι : Type} {env : OnlineEnv L} {s s' : SnapshotRun L ι} {c : ℕ}

/-- **The invariant of the frames.** -/
structure Safe (s : SnapshotRun L ι) : Prop where
  sound : s.base.sched.Sound
  traced : s.base.sched.Traced s.successes
  current : ∀ h, s.held = some h → s.base.sched.Current s.successes h
  started : ∀ job ∈ s.base.sched.jobs ++ s.base.sched.running,
    job.Started (s.base.sched.subs job.sub).client s.base.log
  origin : ∀ h, s.held = some h → h.job.Started h.client s.base.log
  /-- no frame is ahead of its connection -/
  bound : ∀ c f, .onlineChanged f ∈ (s.outbox c).sent → ∃ i < s.base.sched.fresh,
    (s.base.sched.subs i).client = c ∧ f.revision ≤ (s.base.sched.subs i).revision
  ordered : ∀ c, ((s.outbox c).sent.filterMap OutFrame.revision?).Pairwise (· ≥ ·)
  gone : ∀ c, (s.outbox c).drain.gone = true →
    s.base.sched.done c = true ∧ s.base.sched.onlineSub c = none
  kicked : ∀ c, .kickOnline ∈ (s.outbox c).sent → (s.outbox c).drain = .finished
  behind : ∀ c l r, (s.outbox c).sent = l ++ .kickOnline :: r → ∀ f, .onlineChanged f ∉ l

/-- A step of the scheduler, and what it means for the drain it is part of. -/
theorem Safe.sched {e : PresenceEvent ι} {entries : List PresenceEntry} (h : Safe s)
    (hstep : Step s.base.sched e entries s'.base.sched) (hlog : s'.base.log = entries ++ s.base.log)
    (htraced : s'.base.sched.Traced s'.successes)
    (hcurrent : ∀ h, s'.held = some h → s'.base.sched.Current s'.successes h)
    (horigin : ∀ h, s'.held = some h → h.job.Started h.client s.base.log)
    (hsent : ∀ c, (s'.outbox c).sent = (s.outbox c).sent)
    (hdrain : ∀ c, (s'.outbox c).drain = (s.outbox c).drain ∨ (s.outbox c).drain ≠ .finished ∧
      ((s'.outbox c).drain.gone = true →
        s'.base.sched.done c = true ∧ s'.base.sched.onlineSub c = none)) : Safe s' := by
  have hgrows := hstep.grows h.sound
  have hold {job : OnlineRead} {c : ℕ} (hjob : job.Started c s.base.log) :
      job.Started c s'.base.log := by
    obtain ⟨time, mark, hmem⟩ := hjob
    exact ⟨time, mark, hlog ▸ mem_append_right _ hmem⟩
  refine ⟨h.sound.step hstep, htraced, hcurrent, fun job hmem ↦ ?_, fun x hx ↦ hold (horigin x hx),
    fun c f hf ↦ ?_, fun c ↦ ?_, fun c hgone ↦ ?_, fun c hkick ↦ ?_, fun c l r heq ↦ ?_⟩
  · rcases hstep.jobs h.sound hmem with hmem | ⟨hhas, -, -, time, mark, hnew⟩
    · have hlt := h.sound.alloc _ (mem_map_of_mem hmem)
      rw [(hstep.revision h.sound hlt).1]
      exact hold (h.started job hmem)
    · obtain ⟨c, hc⟩ := h.sound.queued _ hhas
      rw [(hstep.revision h.sound (h.sound.lt_fresh hc)).1]
      exact ⟨time, mark, hlog ▸ mem_append_left _ hnew⟩
  · obtain ⟨i, hi, hclient, hle⟩ := h.bound c f (hsent c ▸ hf)
    obtain ⟨hclient', hrevision⟩ := hstep.revision h.sound hi
    refine ⟨i, hi.trans_le hgrows.fresh, hclient'.trans hclient, ?_⟩
    rcases hrevision with ⟨hsame, -⟩ | hlt
    · exact hsame ▸ hle
    · exact hle.trans hlt.le
  · exact hsent c ▸ h.ordered c
  · rcases hdrain c with hsame | ⟨-, hnew⟩
    · obtain ⟨hd, hnone⟩ := h.gone c (hsame ▸ hgone)
      exact ⟨hgrows.done c hd, hgrows.gone c hnone hd⟩
    · exact hnew hgone
  · have hfinished := h.kicked c (hsent c ▸ hkick)
    rcases hdrain c with hsame | ⟨hne, -⟩
    · exact hsame.trans hfinished
    · exact absurd hfinished hne
  · exact h.behind c l r ((hsent c).symm.trans heq)

/-- **What queueing a frame does.** -/
structure Queued (s : SnapshotRun L ι) (c : ℕ) (frame : OutFrame ι) (s' : SnapshotRun L ι) : Prop where
  base : s'.base = s.base
  held : s'.held = s.held
  successes : s'.successes = s.successes
  closing : (s.outbox c).closing = false
  drain : ∀ c', (s'.outbox c').drain = (s.outbox c').drain
  self : (s'.outbox c).sent = frame :: (s.outbox c).sent
  other : ∀ c', c' ≠ c → (s'.outbox c').sent = (s.outbox c').sent

theorem queueFrame_cases (s : SnapshotRun L ι) (c : ℕ) (frame : OutFrame ι) (fits : Bool) :
    s.queueFrame c frame fits = s ∨ Queued s c frame (s.queueFrame c frame fits) := by
  rw [SnapshotRun.queueFrame]
  split
  · exact .inl rfl
  next hclosing =>
    refine .inr ⟨rfl, rfl, rfl, by simpa using fun h ↦ hclosing (.inl h), fun c' ↦ ?_, ?_,
      fun c' hc ↦ ?_⟩
    · by_cases hc : c' = c
      · subst hc
        simp
      · simp [hc]
    · simp
    · simp [hc]

section

variable (h : Safe s) {base : PresenceRun L}
include h

/-- **A frame is queued.** -/
theorem Safe.queued {frame : OutFrame ι} (hq : Queued s c frame s')
    (honline : ∀ f, frame = .onlineChanged f → (s.outbox c).drain.gone = false ∧
      ∃ i < s.base.sched.fresh, (s.base.sched.subs i).client = c ∧
        f.revision = (s.base.sched.subs i).revision)
    (hkick : frame = .kickOnline → (s.outbox c).drain = .finished) : Safe s' := by
  refine ⟨hq.base ▸ h.sound, hq.base ▸ hq.successes ▸ h.traced, fun x hx ↦ ?_, hq.base ▸ h.started,
    fun x hx ↦ hq.base ▸ h.origin x (hq.held ▸ hx), fun c' f hf ↦ ?_,
    fun c' ↦ ?_, fun c' hgone ↦ ?_, fun c' hmem ↦ ?_, fun c' l r heq f hf ↦ ?_⟩
  · rw [hq.base, hq.successes]
    exact h.current x (hq.held ▸ hx)
  · rw [hq.base]
    by_cases hc : c' = c
    · subst hc
      rw [hq.self] at hf
      rcases mem_cons.1 hf with hf | hf
      · obtain ⟨-, i, hi, hclient, hrevision⟩ := honline f hf.symm
        exact ⟨i, hi, hclient, hrevision.le⟩
      · exact h.bound c' f hf
    · exact h.bound c' f (hq.other c' hc ▸ hf)
  · by_cases hc : c' = c
    · subst hc
      rw [hq.self, filterMap_cons]
      cases frame with
      | onlineChanged f =>
        obtain ⟨-, i, hi, hclient, hrevision⟩ := honline f rfl
        refine pairwise_cons.2 ⟨fun r hr ↦ ?_, h.ordered c'⟩
        obtain ⟨frame, hmem, hr⟩ := mem_filterMap.1 hr
        cases frame with
        | onlineChanged f' =>
          -- earlier frames are of the same object
          obtain ⟨i', hi', hclient', hle⟩ := h.bound c' f' hmem
          obtain rfl := h.sound.owner i hi i' hi' (hclient.trans hclient'.symm)
          obtain rfl : f'.revision = r := some.inj hr
          exact hrevision ▸ hle
        | kickOnline | other => cases hr
      | kickOnline | other => exact h.ordered c'
    · rw [hq.other c' hc]
      exact h.ordered c'
  · rw [hq.base]
    exact h.gone c' (hq.drain c' ▸ hgone)
  · rw [hq.drain]
    by_cases hc : c' = c
    · subst hc
      rw [hq.self] at hmem
      rcases mem_cons.1 hmem with hmem | hmem
      · exact hkick hmem.symm
      · exact h.kicked c' hmem
    · exact h.kicked c' (hq.other c' hc ▸ hmem)
  · by_cases hc : c' = c
    · subst hc
      rw [hq.self] at heq
      cases l with
      | nil => cases hf
      | cons x l =>
        obtain ⟨rfl, hsent⟩ : frame = x ∧ (s.outbox c').sent = l ++ .kickOnline :: r :=
          cons.inj heq
        rcases mem_cons.1 hf with hf | hf
        · have hfinished := h.kicked c' (hsent ▸ mem_append_right _ mem_cons_self)
          have hgone := (honline f hf.symm).1
          rw [hfinished] at hgone
          cases hgone
        · exact h.behind c' l r hsent f hf
    · exact h.behind c' l r (hq.other c' hc ▸ heq) f hf

theorem Safe.queueFrame {frame : OutFrame ι}
    (honline : ∀ f, frame = .onlineChanged f → (s.outbox c).drain.gone = false ∧
      ∃ i < s.base.sched.fresh, (s.base.sched.subs i).client = c ∧
        f.revision = (s.base.sched.subs i).revision)
    (hkick : frame = .kickOnline → (s.outbox c).drain = .finished) (fits : Bool) :
    Safe (s.queueFrame c frame fits) := by
  rcases queueFrame_cases s c frame fits with heq | hq
  · rwa [heq]
  · exact h.queued hq honline hkick

/-- What a worker holds may be queued. -/
theorem Safe.held {x : Held ι} (hx : s.held = some x) :
    (s.outbox x.client).drain.gone = false ∧ ∃ i < s.base.sched.fresh,
      (s.base.sched.subs i).client = x.client ∧ x.frame.revision = (s.base.sched.subs i).revision := by
  have hc := h.current x hx
  obtain ⟨hlt, hclient⟩ := h.sound.current _ _ hc.sub
  refine ⟨Bool.eq_false_iff.2 fun hgone ↦ ?_, _, hlt, hclient, hc.revision.symm⟩
  cases hc.sub.symm.trans (h.gone _ hgone).2

/-- A step of client `c`'s drain or close. -/
theorem Safe.party {o : Outbox ι} {e : PresenceEvent ι} {entries : List PresenceEntry}
    (hstep : Step s.base.sched e entries base.sched) (hlog : base.log = entries ++ s.base.log)
    (hfinish : ∀ k result now, e ≠ .finish k result now)
    (hcurrent : ∀ x, s.held = some x → base.sched.Current s.successes x)
    (hsent : o.sent = (s.outbox c).sent)
    (hdrain : o.drain = (s.outbox c).drain ∨ (s.outbox c).drain ≠ .finished ∧
      (o.drain.gone = true → base.sched.done c = true ∧ base.sched.onlineSub c = none)) :
    Safe { s with base, outbox := update s.outbox c o } := by
  refine h.sched hstep hlog (h.traced.step h.sound hstep hfinish) hcurrent h.origin (fun c' ↦ ?_)
    fun c' ↦ ?_
  · by_cases hc : c' = c
    · subst hc
      simpa using hsent
    · simp [hc]
  · by_cases hc : c' = c
    · subst hc
      simpa using hdrain
    · exact .inl (by simp [hc])

/-- Only the client's own fields change. -/
theorem Safe.write {o : Outbox ι}
    (hsent : o.sent = (s.outbox c).sent)
    (hdrain : o.drain = (s.outbox c).drain ∨ (s.outbox c).drain ≠ .finished ∧
      (o.drain.gone = true → s.base.sched.done c = true ∧ s.base.sched.onlineSub c = none)) :
    Safe { s with outbox := update s.outbox c o } := by
  have hidle : Step s.base.sched (.turn 0 : PresenceEvent ι) [] s.base.sched :=
    .idle s.base.sched.frames
  exact h.party hidle rfl nofun h.current hsent hdrain

theorem Safe.finish {k : ℕ} {result : Option (List ι)} {now : Int}
    (hstep : s.next env (.finish k result now) = some s') : Safe s' := by
  rw [SnapshotRun.next] at hstep
  split at hstep
  · cases hstep
  split at hstep
  · cases hstep
  next job hk =>
  obtain ⟨base, hbase, rfl⟩ := map_eq_some_iff.1 hstep
  have hsched : base.sched = (finishOnlineRead
      { s.base.sched with running := s.base.sched.running.eraseIdx k } job result now).1 := by
    rw [PresenceRun.next, hk] at hbase
    cases hbase
    rfl
  obtain ⟨entries, hbase, hlog⟩ := h.sound.step_cases hbase
  refine h.sched hbase hlog ?_ (fun x hx ↦ ?_) (fun x hx ↦ ?_) (fun _ ↦ rfl) fun _ ↦ .inl rfl
  · rw [hsched]
    exact h.traced.finish h.sound hk now
  · obtain ⟨frame, hframe, rfl⟩ := map_eq_some_iff.1 hx
    rw [hsched]
    exact .of_finish h.traced h.sound hk now hframe
  · obtain ⟨frame, hframe, rfl⟩ := map_eq_some_iff.1 hx
    exact h.started job (mem_append_right _ (mem_of_getElem? hk))

/-- The scheduler's steps that need no lock leave what a worker holds. -/
theorem Safe.unlocked {e : PresenceEvent ι} {entries : List PresenceEntry}
    (hstep : Step s.base.sched e entries base.sched) {locks : Bool} (hlocks : e.locks = some locks)
    (hheld : ¬ (s.held.isSome = true ∧ locks = true)) (x : Held ι) (hx : s.held = some x) :
    base.sched.Current s.successes x := by
  have hcurrent := h.current x hx
  obtain rfl : locks = false := Bool.eq_false_iff.2 fun ht ↦ hheld ⟨by rw [hx]; rfl, ht⟩
  generalize base.sched = p at hstep
  cases hstep with
  | take | closeNode => exact hcurrent.congr rfl rfl rfl
  | _ => cases hlocks

theorem Safe.unsubscribe (hnext : s.base.next env (.unsubscribe c : PresenceEvent ι) = some base) :
    Step s.base.sched (.unsubscribe c : PresenceEvent ι) [] base.sched ∧
      base.log = [] ++ s.base.log ∧ base.sched.done c = true ∧ base.sched.onlineSub c = none := by
  rw [PresenceRun.next] at hnext
  split at hnext
  next hdone =>
    cases hnext
    have hstep : Step s.base.sched (.unsubscribe c : PresenceEvent ι) [] _ := .unsubscribe hdone
    refine ⟨hstep, rfl, (hstep.grows h.sound).done c hdone, ?_⟩
    rw [Presence.removeOnlineSubscriptions]
    split
    next hnone => exact hnone
    next => exact update_self ..
  next => cases hnext

/-- **Steps keep the frames safe.** -/
theorem Safe.step {e : SnapshotEvent ι} (hstep : s.next env e = some s') : Safe s' := by
  cases e with
  | sched e =>
    rw [SnapshotRun.next] at hstep
    split at hstep
    · cases hstep
    next locks hlocks =>
    split at hstep
    · cases hstep
    next hheld =>
    obtain ⟨base, hbase, rfl⟩ := map_eq_some_iff.1 hstep
    obtain ⟨entries, hbase, hlog⟩ := h.sound.step_cases hbase
    refine h.sched hbase hlog (h.traced.step h.sound hbase fun k result now heq ↦ ?_)
      (h.unlocked hbase hlocks hheld) h.origin (fun _ ↦ rfl) fun _ ↦ .inl rfl
    rw [heq] at hlocks
    cases hlocks
  | finish k result now => exact h.finish hstep
  | enqueue fits =>
    rw [SnapshotRun.next] at hstep
    split at hstep
    · cases hstep
    next x hx =>
    cases hstep
    have hfree : Safe { s with held := none } :=
      ⟨h.sound, h.traced, nofun, h.started, nofun, h.bound, h.ordered, h.gone, h.kicked, h.behind⟩
    refine hfree.queueFrame (fun f hf ↦ ?_) ?_ fits
    · obtain rfl := OutFrame.onlineChanged.inj hf
      exact h.held hx
    · nofun
  | send c fits =>
    cases hstep
    refine h.queueFrame ?_ ?_ fits
    · nofun
    · nofun
  | beginDrain c last =>
    rw [SnapshotRun.next] at hstep
    split at hstep
    · cases hstep
    next hidle =>
    obtain ⟨base, hbase, rfl⟩ := map_eq_some_iff.1 hstep
    cases hbase
    refine h.party (.cancelActive c) rfl nofun (fun x hx ↦ (h.current x hx).congr rfl rfl rfl) rfl
      (.inr ⟨fun hf ↦ hidle (.inr ?_), nofun⟩)
    rw [hf]
    nofun
  | drainRemove c =>
    rw [SnapshotRun.next] at hstep
    split at hstep
    next last hbegun =>
      split at hstep
      · cases hstep
      next hheld =>
      obtain ⟨base, hbase, rfl⟩ := map_eq_some_iff.1 hstep
      obtain ⟨hbase, hlog, hgone⟩ := h.unsubscribe hbase
      refine h.party hbase hlog nofun (fun x hx ↦ absurd hx ?_) rfl
        (.inr ⟨by rw [hbegun]; nofun, fun _ ↦ hgone⟩)
      rintro heq
      simp [heq] at hheld
    next => cases hstep
  | drainSend c fits =>
    rw [SnapshotRun.next] at hstep
    split at hstep
    next last hremoved =>
      cases hstep
      have hwritten : Safe { s with
          outbox := update s.outbox c { s.outbox c with drain := .finished } } := by
        refine h.write rfl (.inr ⟨by rw [hremoved]; nofun, fun _ ↦ h.gone c ?_⟩)
        rw [hremoved]
        rfl
      split
      · refine hwritten.queueFrame ?_ (fun _ ↦ ?_) fits
        · nofun
        · simp
      · exact hwritten
    next => cases hstep
  | cancelCtx c =>
    rw [SnapshotRun.next] at hstep
    obtain ⟨base, hbase, rfl⟩ := map_eq_some_iff.1 hstep
    cases hbase
    exact h.party (.cancelActive c) rfl nofun (fun x hx ↦ (h.current x hx).congr rfl rfl rfl) rfl
      (.inl rfl)
  | markClosing c =>
    rw [SnapshotRun.next] at hstep
    split at hstep
    · cases hstep
      exact h.write rfl (.inl rfl)
    · cases hstep
  | closeRemove c =>
    rw [SnapshotRun.next] at hstep
    split at hstep
    next hclosing =>
      obtain ⟨base, hbase, rfl⟩ := map_eq_some_iff.1 hstep
      obtain ⟨hbase, hlog, -⟩ := h.unsubscribe hbase
      refine h.party hbase hlog nofun (fun x hx ↦ ?_) rfl (.inl rfl)
      simp [hx] at hclosing
    next => cases hstep

end

theorem safe {frames : L} (h : (snapshots ι env frames).Reachable s) : Safe s := by
  refine System.invariant (I := Safe) (fun s hs ↦ ?_) (fun s e s' _ hs hstep ↦ hs.step hstep) h
  rw [show s = _ from hs]
  refine ⟨sound_new frames, ⟨nofun, nofun, fun i hi ↦ absurd hi (Nat.not_lt_zero i)⟩, nofun, nofun, nofun,
    nofun, fun _ ↦ .nil, nofun, nofun, fun c l r heq ↦ ?_⟩
  cases l <;> cases heq

theorem sent_update {o : Outbox ι} (ho : o.sent = (s.outbox c).sent) (c' : ℕ) :
    (update s.outbox c o c').sent = (s.outbox c').sent := by
  by_cases hc : c' = c
  · subst hc
    simpa using ho
  · simp [hc]

theorem sent_within {e : PresenceEvent ι} {o : Outbox ι} (hstep : s.within env e c o = some s')
    (ho : o.sent = (s.outbox c).sent) (c' : ℕ) : (s'.outbox c').sent = (s.outbox c').sent := by
  obtain ⟨base, -, rfl⟩ := map_eq_some_iff.1 hstep
  exact sent_update ho c'

/-- A presence frame is not queued as another frame. -/
theorem Queued.eq_of_sent {frame : OutFrame ι} {f : OnlineSnapshot ι} {c' : ℕ}
    (hq : Queued s c' frame s') (hsent : (s'.outbox c).sent = .onlineChanged f :: (s.outbox c).sent) :
    c' = c ∧ frame = .onlineChanged f := by
  by_cases hc : c = c'
  · subst hc
    rw [hq.self] at hsent
    exact ⟨rfl, (cons.inj hsent).1⟩
  · rw [hq.other c hc] at hsent
    exact absurd hsent.symm (cons_ne_self _ _)

/-- **Only `queueOnlineSnapshot` queues a presence frame.** -/
theorem eq_enqueue {e : SnapshotEvent ι} {f : OnlineSnapshot ι} (hstep : s.next env e = some s')
    (hsent : (s'.outbox c).sent = .onlineChanged f :: (s.outbox c).sent) :
    (s.outbox c).closing = false ∧ ∃ x, s.held = some x ∧ x.client = c ∧ x.frame = f := by
  -- the other steps leave what was sent, or queue another frame
  have hsame (heq : (s'.outbox c).sent = (s.outbox c).sent) : False :=
    cons_ne_self _ _ (hsent.symm.trans heq)
  cases e with
  | sched | finish =>
    rw [SnapshotRun.next] at hstep
    split at hstep
    · cases hstep
    split at hstep
    · cases hstep
    obtain ⟨base, -, rfl⟩ := map_eq_some_iff.1 hstep
    exact (hsame rfl).elim
  | enqueue fits =>
    rw [SnapshotRun.next] at hstep
    split at hstep
    · cases hstep
    next x hx =>
    cases hstep
    rcases queueFrame_cases { s with held := none } x.client (.onlineChanged x.frame) fits with
      heq | hq
    · exact (hsame (by rw [heq])).elim
    · obtain ⟨rfl, hframe⟩ := hq.eq_of_sent hsent
      exact ⟨hq.closing, x, hx, rfl, OutFrame.onlineChanged.inj hframe⟩
  | send c' fits =>
    cases hstep
    rcases queueFrame_cases s c' .other fits with heq | hq
    · exact (hsame (by rw [heq])).elim
    · exact nomatch (hq.eq_of_sent hsent).2
  | beginDrain | drainRemove | cancelCtx | closeRemove =>
    rw [SnapshotRun.next] at hstep
    repeat' split at hstep
    all_goals first
      | exact (hsame (sent_within hstep rfl c)).elim
      | cases hstep
  | drainSend c' fits =>
    rw [SnapshotRun.next] at hstep
    split at hstep
    · cases hstep
      have hwritten := sent_update (s := s) (o := { s.outbox c' with drain := .finished }) rfl c
      split at hsent
      · rcases queueFrame_cases { s with
            outbox := update s.outbox c' { s.outbox c' with drain := .finished } } c'
          .kickOnline fits with heq | hq
        · rw [heq] at hsent
          exact absurd (hsent.symm.trans hwritten) (cons_ne_self _ _)
        · exact nomatch (hq.eq_of_sent (hsent.trans (by rw [hwritten]))).2
      · exact absurd (hsent.symm.trans hwritten) (cons_ne_self _ _)
    · cases hstep
  | markClosing c' =>
    rw [SnapshotRun.next] at hstep
    split at hstep
    · cases hstep
      exact (hsame (sent_update (by rfl) c)).elim
    · cases hstep

end SnapshotRun

open Presence

variable {L ι : Type} {env : OnlineEnv L} {frames : L}

/-- **Presence snapshots are safe.** The first part is about the moment at which a presence frame
`f` is queued to connection `c`; the other two are about everything that a connection was sent,
newest first. -/
theorem snapshots_safe {s : SnapshotRun L ι} (h : (snapshots ι env frames).Reachable s) :
    (∀ e s' c f, (snapshots ι env frames).step s e s' →
      (s'.outbox c).sent = .onlineChanged f :: (s.outbox c).sent →
      ∃ i job result now, s.held = some ⟨c, job, result, now, f⟩ ∧
        -- the revision is the current one
        s.base.sched.onlineSub c = some i ∧ (s.base.sched.subs i).revision = f.revision ∧
        -- the read was started under it, with its set
        job.revision = f.revision ∧ job.userIds = (s.base.sched.subs i).userIds ∧
        job.Started c s.base.log ∧ (f.stale = false → result = some f.items) ∧
        -- and nothing has ended
        (s.base.sched.subs i).userIds ≠ [] ∧ (s.outbox c).drain.gone = false ∧
        (s.outbox c).closing = false ∧ s.base.sched.stopped = false ∧
        (f.stale = true → f.items = [] ∧ ∃ x, latest s.successes c f.revision = some x ∧
          onlineStaleAfter ≤ now - x.time)) ∧
    (∀ c, ((s.outbox c).sent.filterMap OutFrame.revision?).Pairwise (· ≥ ·)) ∧
    ∀ c l r, (s.outbox c).sent = l ++ .kickOnline :: r → ∀ f, .onlineChanged f ∉ l := by
  have hs := SnapshotRun.safe h
  refine ⟨fun e s' c f hstep hsent ↦ ?_, hs.ordered, hs.behind⟩
  obtain ⟨hclosing, x, hx, rfl, rfl⟩ := SnapshotRun.eq_enqueue hstep hsent
  obtain ⟨hsub, hrevision, hids, hne, hstopped, last, hassembled, hlast⟩ := hs.current x hx
  refine ⟨x.job.sub, x.job, x.result, x.now, hx, hsub, hrevision, hassembled.revision.symm, hids,
    hs.origin x hx, hassembled.fresh, hne, (hs.held hx).1, hclosing, hstopped, fun hstale ↦ ?_⟩
  obtain ⟨-, hitems, -, hle⟩ := hassembled.stale hstale
  obtain ⟨y, hy, rfl⟩ := hlast hstale
  exact ⟨hitems, y, hy, hle⟩

namespace SnapshotsDemo

/-- A read for connection 1 succeeds, and the next one fails ninety seconds later. -/
def failingRead : List (SnapshotEvent Unit) :=
  [.sched (.subscribe 1 { revision := 1, userIds := ["nx__a"] } 10), .sched (.turn 10), .sched .take,
    .finish 0 (some [()]) 20, .enqueue true, .sched (.turn 30000000020), .sched .take,
    .finish 0 none 90000000020]

end SnapshotsDemo

open PresenceDemo SnapshotsDemo in
theorem snapshots_safe_demo : ∃ s s' : SnapshotRun Unit Unit,
    System.replay (SnapshotRun.next openNode) { base := { sched := .new () } } failingRead = some s ∧
    s.next openNode (.enqueue true) = some s' ∧
    (s'.outbox 1).sent = [.onlineChanged ⟨1, [], true⟩, .onlineChanged ⟨1, [()], false⟩] ∧
    ∃ x, latest s.successes 1 1 = some x := by
  have hrun : (System.replay (SnapshotRun.next openNode) { base := { sched := .new () } }
      failingRead).bind (fun s ↦ (s.next openNode (.enqueue true)).map fun s' ↦
        ((s.outbox 1).sent, (s'.outbox 1).sent)) =
      some ([.onlineChanged ⟨1, [()], false⟩],
        [.onlineChanged ⟨1, [], true⟩, .onlineChanged ⟨1, [()], false⟩]) := by decide
  obtain ⟨s, hs, hrun⟩ := Option.bind_eq_some_iff.1 hrun
  obtain ⟨s', hs', hval⟩ := Option.map_eq_some_iff.1 hrun
  obtain ⟨hsent, hsent'⟩ := Prod.mk.inj hval
  have hreach : (snapshots Unit openNode ()).Reachable s := System.reachable_of_replay hs
  obtain ⟨_, _, _, _, -, -, -, -, -, -, -, -, -, -, -, hstale⟩ :=
    (snapshots_safe hreach).1 (.enqueue true) s' 1 ⟨1, [], true⟩ hs' (by rw [hsent', hsent])
  obtain ⟨-, x, hx, -⟩ := hstale rfl
  exact ⟨s, s', hs, hs', hsent', x, hx⟩

end Nexo.Gateway
