import Nexo.Gateway.PresenceSets

/-!
# What a step of the presence scheduler does

`Presence.Step` lists the effects that a step can have on a scheduler in order, each with its guard;
`Presence.Sound.step_cases` shows that there are no others. Every invariant of runs is proved by
cases on it. The first is the structural invariant itself (`Presence.sound`).
-/

namespace Nexo.Gateway

open Machine Presence

namespace Presence

variable {L ι : Type} {env : OnlineEnv L} {p p' : Presence L} {now : Int} {s : PresenceRun L}

/-! ### Turns of the dispatcher -/

/-- **What a turn of the dispatcher's loop does.** -/
inductive Turned (p : Presence L) (now : Int) : Turn L → Prop
  /-- the queue is empty, or its head not due, or every slot in use -/
  | idle (wait : Int) : Turned p now (.done p wait)
  | throttled (frames : L) (wait : Int) : Turned p now (.done { p with frames } wait)
  | admitted {frames : L} {p' : Presence L} (hlen : 0 < p.due.len)
      (hready : (p.subs (p.due.slot 0)).readyAt ≤ now) (hreads : p.reads ≠ onlineRefreshWorkers)
      (ha : Admitted p now frames p') : Turned p now (.admitted p')

theorem Scheduled.turn (h : Scheduled p) (env : OnlineEnv L) (now : Int) :
    Turned p now (p.turn env now) := by
  rw [Presence.turn]
  split
  · exact .idle 0
  next hlen =>
  dsimp only
  split
  · exact .idle _
  next hready =>
  split
  · exact .idle 0
  next hreads =>
  split
  · exact .throttled _ _
  next frames _ =>
    obtain ⟨p', hp'⟩ := h.exists_admit hreads now frames
    have hpos := Nat.pos_of_ne_zero hlen
    rw [hp']
    exact .admitted hpos (by omega) hreads (Presence.admitted h.heap hpos hp')

theorem Sound.reframe (h : Sound p) (frames : L) : Sound { p with frames } :=
  ⟨⟨h.toRegistered.congr rfl rfl rfl rfl rfl (fun _ ↦ id) id fun _ ↦ ⟨rfl, rfl⟩, h.heap, h.queued,
    h.flight, h.nodup, h.alloc, h.remark, h.marked, h.apart, h.reads, h.slots⟩, h.covered, h.halted⟩

theorem Sound.turn (h : Sound p) {t : Turn L} (ht : Turned p now t) :
    (∃ p' wait, t = .done p' wait ∧ Sound p') ∨ ∃ p', t = .admitted p' ∧ Sound p' := by
  cases ht with
  | idle wait => exact .inl ⟨p, wait, rfl, h⟩
  | throttled frames wait => exact .inl ⟨_, wait, rfl, h.reframe frames⟩
  | admitted hlen _ hreads ha => exact .inr ⟨_, rfl, h.admitted hlen hreads ha⟩

/-- **`dispatchOnline` returns**: its send to `jobs` never blocks. -/
theorem Sound.dispatchOnline (h : Sound p) (env : OnlineEnv L) (now : Int) :
    ∃ r, p.dispatchOnline env now = some r := by
  have hloop (n : ℕ) (q : Presence L) (hq : Sound q) : ∃ r, dispatchLoop env now n q = some r := by
    induction n generalizing q with
    | zero => exact ⟨_, rfl⟩
    | succ n ih =>
      rw [dispatchLoop]
      rcases hq.turn (hq.toScheduled.turn env now) with ⟨q', wait, heq, -⟩ | ⟨q', heq, hq'⟩
      · rw [heq]
        exact ⟨_, rfl⟩
      · rw [heq]
        exact ih q' hq'
  rw [Presence.dispatchOnline]
  split
  · exact ⟨_, rfl⟩
  · exact hloop _ p h

/-! ### Steps -/

/-- **What a step does** to a scheduler in order, and what the history keeps of it. -/
inductive Step (p : Presence L) :
    PresenceEvent ι → List PresenceEntry → Presence L → Prop
  /-- a refused or repeated request -/
  | refused {c : ℕ} {req : SubscriptionRequest} {now : Int} : Step p (.subscribe c req now) [] p
  | accepted {c i : ℕ} {req : SubscriptionRequest} {now : Int} {p' : Presence L}
      (ha : Accepted p c req now i p') : Step p (.subscribe c req now) [.revised c now] p'
  | changed {userIds : List String} {visits : List (List ℕ)} {now : Int}
      (hvisits : List.Forall₂ (fun id l ↦ Yields (watchers p.byUser id) l) userIds visits) :
      Step p (.changed userIds visits now) [] (p.markOnlineChanged visits now)
  | idle (frames : L) {now : Int} : Step p (.turn now) [] { p with frames }
  | admitted {now : Int} {frames : L} {p' : Presence L} (hlen : 0 < p.due.len)
      (hready : (p.subs (p.due.slot 0)).readyAt ≤ now) (hreads : p.reads ≠ onlineRefreshWorkers)
      (ha : Admitted p now frames p') : Step p (.turn now) [p.admission now] p'
  | take {job : OnlineRead} {jobs : List OnlineRead} (hjobs : p.jobs = job :: jobs) :
      Step p .take [] { p with jobs, running := p.running ++ [job] }
  | finished {k : ℕ} {job : OnlineRead} {result : Option (List ι)} {now : Int}
      (hk : p.running[k]? = some job) :
      Step p (.finish k result now) [.finished (p.subs job.sub).client now]
        (finishOnlineRead { p with running := p.running.eraseIdx k } job result now).1
  | cancelActive (c : ℕ) :
      Step p (.cancelActive c) [] { p with done := Function.update p.done c true }
  | unsubscribe {c : ℕ} (hdone : p.done c = true) :
      Step p (.unsubscribe c) [] (p.removeOnlineSubscriptions c)
  | closeNode : Step p .closeNode [] { p with closing := true }
  | stop {order : List ℕ} (horder : order.Perm p.active.keys) :
      Step p (.stop order) [] (p.stop order)

theorem Accepted.revisionOf {c i : ℕ} {req : SubscriptionRequest} (h : Sound p)
    (ha : Accepted p c req now i p') : p'.revisionOf c ≠ p.revisionOf c := by
  have hrev := ha.revision
  have hsub := ha.sub
  obtain ⟨q, hr, rfl⟩ := ha.replaced h
  have hnew : q.revisionOf c = some req.revision := by
    rw [revisionOf, show q.onlineSub = (p.prepared c).onlineSub by rw [hr.frame], hsub,
      Option.map_some, hr.self]
  have hold : p.revisionOf c ≠ some req.revision := by
    rw [revisionOf]
    rcases hc : p.onlineSub c with - | j
    · nofun
    · rw [prepared_of_some hc, hc, Option.some.injEq] at hsub
      rw [prepared_of_some hc, ← hsub] at hrev
      exact fun heq ↦ hrev.ne (Option.some.inj heq)
  split
  · rwa [hnew, ne_comm]
  · have hmark : (q.mark (some i) now).revisionOf c = q.revisionOf c := by
      rw [revisionOf, revisionOf,
        show (q.mark (some i) now).onlineSub = q.onlineSub by rw [mark_frame hr.heap]]
      refine Option.map_congr fun j _ ↦ ?_
      rw [mark_core hr.heap]
    rwa [hmark, hnew, ne_comm]

/-- **A step has one of these effects.** -/
theorem Sound.step_cases {s' : PresenceRun L} {e : PresenceEvent ι} (h : Sound s.sched)
    (hstep : s.next env e = some s') :
    ∃ entries, Step s.sched e entries s'.sched ∧ s'.log = entries ++ s.log := by
  cases e with
  | subscribe c req now =>
    cases hstep
    rcases setOnlineSubscriptions_cases env s.sched c req now with heq | ⟨-, i, ha⟩
    · refine ⟨[], ?_, ?_⟩
      · rw [PresenceRun.record, heq]
        exact .refused
      · simp [PresenceRun.record, heq]
    · refine ⟨_, .accepted ha, ?_⟩
      simp [PresenceRun.record, ha.revisionOf h]
  | changed userIds visits now =>
    rw [PresenceRun.next] at hstep
    split at hstep
    · cases hstep
      exact ⟨[], .changed ‹_›, rfl⟩
    · cases hstep
  | turn now =>
    rw [PresenceRun.next] at hstep
    have ht := h.toScheduled.turn env now
    generalize s.sched.turn env now = t at ht hstep
    cases ht with
    | idle wait =>
      cases hstep
      exact ⟨[], .idle s.sched.frames, rfl⟩
    | throttled frames wait =>
      cases hstep
      exact ⟨[], .idle frames, rfl⟩
    | admitted hlen hready hreads ha =>
      cases hstep
      exact ⟨_, .admitted hlen hready hreads ha, rfl⟩
  | take =>
    rw [PresenceRun.next] at hstep
    split at hstep
    · cases hstep
    next hjobs =>
    split at hstep
    · cases hstep
      exact ⟨[], .take hjobs, rfl⟩
    · cases hstep
  | finish k result now =>
    rw [PresenceRun.next] at hstep
    split at hstep
    · cases hstep
    next hk =>
      cases hstep
      exact ⟨_, .finished hk, rfl⟩
  | cancelActive c =>
    cases hstep
    exact ⟨[], .cancelActive c, rfl⟩
  | unsubscribe c =>
    rw [PresenceRun.next] at hstep
    split at hstep
    next hdone =>
      cases hstep
      exact ⟨[], .unsubscribe hdone, rfl⟩
    next => cases hstep
  | closeNode =>
    cases hstep
    exact ⟨[], .closeNode, rfl⟩
  | stop order =>
    rw [PresenceRun.next] at hstep
    split at hstep
    next horder =>
      cases hstep
      exact ⟨[], .stop horder, rfl⟩
    next => cases hstep

/-- **Steps keep the scheduler in order.** -/
theorem Sound.step {e : PresenceEvent ι} {entries : List PresenceEntry} (h : Sound p)
    (hstep : Step p e entries p') : Sound p' := by
  cases hstep with
  | refused => exact h
  | accepted ha => exact ha.sound h
  | changed => exact h.markOnlineChanged _ _
  | idle frames => exact h.reframe frames
  | admitted hlen _ hreads ha => exact h.admitted hlen hreads ha
  | take hjobs => exact h.take hjobs
  | finished hk => exact h.finish hk
  | cancelActive c =>
    refine h.expire rfl (fun c' hc ↦ ?_) id
    by_cases heq : c' = c
    · exact heq ▸ Function.update_self ..
    · exact (Function.update_of_ne heq ..).trans hc
  | unsubscribe hdone => exact h.removeOnlineSubscriptions hdone
  | closeNode => exact h.expire rfl (fun _ ↦ id) fun _ ↦ rfl
  | stop horder => exact h.stop horder

theorem sound_new (frames : L) : Sound (new frames) :=
  ⟨scheduled_new frames, nofun, nofun⟩

/-- **The scheduler is in order** in every state of every run. -/
theorem sound {frames : L} (h : (presence ι env frames).Reachable s) :
    Sound s.sched := by
  refine System.invariant (I := fun s ↦ Sound s.sched) (fun s hs ↦ ?_) (fun s e s' _ hs hstep ↦ ?_) h
  · rw [show s = _ from hs]
    exact sound_new frames
  · obtain ⟨_, hstep, -⟩ := hs.step_cases hstep
    exact hs.step hstep

/-! ### The dispatcher's loop -/

/-- **`dispatchOnline` is a path of turns.** -/
theorem path_dispatchOnline {frames : L} {wait : Int}
    (h : s.sched.dispatchOnline env now = some (p', wait)) :
    ∃ t s', (presence ι env frames).Path s t s' ∧ s'.sched = p' := by
  have hloop (n : ℕ) (s : PresenceRun L) (h : dispatchLoop env now n s.sched = some (p', wait)) :
      ∃ t s', (presence ι env frames).Path s t s' ∧ s'.sched = p' := by
    induction n generalizing s with
    | zero =>
      cases h
      exact ⟨[], s, .refl s, rfl⟩
    | succ n ih =>
      have hstep (s' : PresenceRun L) (hnext : s.next env (.turn now : PresenceEvent ι) = some s') :
          (presence ι env frames).Path s [.turn now] s' := (System.Path.refl s).step hnext
      rw [dispatchLoop] at h
      rcases hturn : s.sched.turn env now with ⟨q, d⟩ | q | - <;> rw [hturn] at h
      · cases h
        refine ⟨_, _, hstep { s with sched := p' } ?_, rfl⟩
        simp [PresenceRun.next, hturn]
      · obtain ⟨t, s', hpath, heq⟩ := ih (s.record now [s.sched.admission now] q) h
        refine ⟨_, s', (hstep _ ?_).trans hpath, heq⟩
        simp [PresenceRun.next, hturn]
      · cases h
  rw [dispatchOnline] at h
  split at h
  · cases h
    exact ⟨[], s, .refl s, rfl⟩
  · exact hloop _ s h

end Presence

end Nexo.Gateway
