import Nexo.Gateway.Dispatcher
import Nexo.Gateway.PresenceEffect

/-!
# No wake-up of the dispatcher is lost

A turn leaves the dispatcher with a reason to wait: nothing is queued, every slot is in use, or the
timer fires by the time at which the head can be admitted (`Watched`, `watched_dispatchOnline`).
What the others do afterwards either fills the channel `wake` or leaves the reason standing: it may
take the head away, but brings no connection forward of it (`Later`).
-/

namespace Nexo.Gateway

open Machine TokenBucket Option

namespace Presence

variable {L ι : Type} {env : OnlineEnv L} {p p' p'' : Presence L} {c i : ℕ} {now : Int}

/-- When the head of the queue is ready. -/
def headReady (p : Presence L) : Int := (p.subs (p.due.slot 0)).readyAt

/-! ### What the others do -/

/-- **The head is no earlier, or the dispatcher is woken.** -/
structure Later (p p' : Presence L) : Prop where
  wake : p.wake = true → p'.wake = true
  head : p'.wake = true ∨ p'.frames = p.frames ∧ p'.reads = p.reads ∧
    (0 < p'.due.len → 0 < p.due.len ∧ p.headReady ≤ p'.headReady)

theorem Later.refl (p : Presence L) : Later p p := ⟨id, .inr ⟨rfl, rfl, fun h ↦ ⟨h, le_rfl⟩⟩⟩

theorem Later.of_wake (h : p'.wake = true) : Later p p' := ⟨fun _ ↦ h, .inl h⟩

theorem Later.trans (h : Later p p') (h' : Later p' p'') : Later p p'' where
  wake hwake := h'.wake (h.wake hwake)
  head := by
    rcases h'.head with hwake | ⟨hframes', hreads', hhead'⟩
    · exact .inl hwake
    rcases h.head with hwake | ⟨hframes, hreads, hhead⟩
    · exact .inl (h'.wake hwake)
    refine .inr ⟨hframes'.trans hframes, hreads'.trans hreads, fun hlen ↦ ?_⟩
    obtain ⟨hlen', hle'⟩ := hhead' hlen
    obtain ⟨hlen, hle⟩ := hhead hlen'
    exact ⟨hlen, hle.trans hle'⟩

section

variable (hheap : p.due.Ok (key p.subs))
include hheap

/-- The new head was queued before, and is ready when it was. -/
theorem Later.of_head (hwake : p'.wake = p.wake)
    (hframes : p'.frames = p.frames) (hreads : p'.reads = p.reads)
    (hhead : 0 < p'.due.len → p.due.Has (p'.due.slot 0) ∧
      p'.headReady = (p.subs (p'.due.slot 0)).readyAt) : Later p p' := by
  refine ⟨fun h ↦ hwake.trans h, .inr ⟨hframes, hreads, fun hlen ↦ ?_⟩⟩
  obtain ⟨hhas, hready⟩ := hhead hlen
  refine ⟨hheap.len_pos hhas, ?_⟩
  rw [hready]
  exact (Prod.Lex.toLex_le_toLex.1 (hheap.head_le hhas)).elim le_of_lt fun heq ↦ heq.1.le

theorem later_requeue (i : ℕ) (time : Int) :
    Later p (p.requeue i time) := by
  have hreq := requeued hheap i time
  rcases hreq.wake with hwake | ⟨hwake, hsame | hindex⟩
  · exact .of_wake hwake
  · refine .of_head hheap hwake (by rw [hreq.frame]) (by rw [hreq.frame]) fun hlen ↦ ?_
    rw [headReady, hsame.1, hsame.2] at *
    exact ⟨hheap.has_head hlen, rfl⟩
  · refine .of_head hheap hwake (by rw [hreq.frame]) (by rw [hreq.frame]) fun hlen ↦ ?_
    -- the head is another one
    have hfirst := hreq.heap.index_head hlen
    have hne : (p.requeue i time).due.slot 0 ≠ i := fun heq ↦ hindex (by rwa [heq] at hfirst)
    exact ⟨((hreq.has _).1 (hreq.heap.has_head hlen)).resolve_right hne,
      by rw [headReady, hreq.other _ hne]⟩

theorem later_mark (s : Option ℕ) (now : Int) :
    Later p (p.mark s now) := by
  rcases s with - | i
  · exact .refl p
  rcases hcancel : (p.subs i).cancel with - | -
  · rw [mark_of_idle hcancel]
    exact later_requeue hheap i now
  · rw [mark_of_cancel hcancel]
    refine .of_head hheap rfl rfl rfl fun hlen ↦ ⟨hheap.has_head hlen, ?_⟩
    show ((p.write i { p.subs i with remark := true }).subs (p.due.slot 0)).readyAt =
      (p.subs (p.due.slot 0)).readyAt
    by_cases hi : p.due.slot 0 = i
    · rw [hi, write_subs_self]
    · rw [write_subs_of_ne hi]

end

theorem Sound.later_markAll (h : Sound p) (clients : List ℕ) (now : Int) :
    Later p (clients.foldl (fun p c ↦ p.mark (p.active.lookup c) now) p) := by
  induction clients generalizing p with
  | nil => exact .refl p
  | cons c clients ih =>
    have hmark : Sound (p.mark (p.active.lookup c) now) := h.markAll [c] now
    exact (later_mark h.heap _ now).trans (ih hmark)

theorem Removed.later (h : Scheduled p) (hr : Removed p c i p') : Later p p' := by
  refine .of_head h.heap (by rw [hr.frame]) (by rw [hr.frame]) (by rw [hr.frame]) fun hlen ↦ ?_
  obtain ⟨hhas, hne⟩ := (hr.has _).1 (hr.heap.has_head hlen)
  exact ⟨hhas, by rw [headReady, hr.subs, Function.update_of_ne hne]⟩

theorem Replaced.later {revision : Int} {ids : List String} (h : Scheduled p)
    (hr : Replaced p c i revision ids p') : Later p p' := by
  refine .of_head h.heap (by rw [hr.frame]) (by rw [hr.frame]) (by rw [hr.frame]) fun hlen ↦ ?_
  obtain ⟨hhas, hne⟩ := (hr.has _).1 (hr.heap.has_head hlen)
  exact ⟨hhas, by rw [headReady, hr.other _ hne]⟩

/-- A new object is not queued. -/
theorem Scheduled.later_prepared (h : Scheduled p) (c : ℕ) : Later p (p.prepared c) := by
  have hdue : (p.prepared c).due = p.due := by rw [prepared_frame c]
  refine .of_head h.heap (by rw [prepared_frame c]) (by rw [prepared_frame c]) (by rw [prepared_frame c])
    fun hlen ↦ ?_
  rw [hdue] at hlen
  obtain ⟨c', hc'⟩ := h.queued _ (h.heap.has_head hlen)
  rw [headReady, hdue]
  exact ⟨h.heap.has_head hlen, by rw [prepared_subs (h.lt_fresh hc')]⟩

theorem Accepted.later {req : SubscriptionRequest} (h : Sound p) (ha : Accepted p c req now i p') :
    Later p p' := by
  have hprepared := h.prepared ha.done ha.stopped
  obtain ⟨q, hr, rfl⟩ := ha.replaced h
  have hlater : Later p q := (h.toScheduled.later_prepared c).trans (hr.later hprepared.toScheduled)
  split
  · exact hlater
  · exact hlater.trans (later_mark hr.heap (some i) now)

/-- **What the others do** leaves the head no earlier, or wakes the dispatcher. -/
theorem Step.later {e : PresenceEvent ι} {entries : List PresenceEntry} {clock : Int} (h : Sound p)
    (hother : Dispatcher.allows clock e = true) (hstep : Step p e entries p') : Later p p' := by
  cases hstep with
  | refused => exact .refl p
  | accepted ha => exact ha.later h
  | @changed userIds visits now hvisits =>
    rw [markOnlineChanged]
    split
    · exact .refl p
    · exact h.later_markAll _ now
  | idle | admitted | stop => cases hother
  | take | cancelActive | closeNode =>
    exact .of_head h.heap rfl rfl rfl fun hlen ↦ ⟨h.heap.has_head hlen, rfl⟩
  | @finished k job result now hk => exact .of_wake (by rw [(h.toScheduled.finished hk).frame])
  | @unsubscribe c hdone =>
    rw [removeOnlineSubscriptions]
    split
    · exact .refl p
    next i hi =>
      have hlater := (removed h.toRegistered h.heap hi).later h.toScheduled
      exact ⟨hlater.wake, hlater.head⟩

theorem Sound.received (h : Sound p) : Sound { p with wake := false } :=
  ⟨⟨h.toRegistered.congr rfl rfl rfl rfl rfl (fun _ ↦ id) id fun _ ↦ ⟨rfl, rfl⟩, h.heap, h.queued,
    h.flight, h.nodup, h.alloc, h.remark, h.marked, h.apart, h.reads, h.slots⟩, h.covered, h.halted⟩

end Presence

/-! ### What a turn leaves -/

namespace Dispatcher

open Presence

variable {ι : Type} {available : Bool} {uuidString : String → Option String}
  {p p' : Presence (Bucket ℚ)} {now wait : Int} {timer : Option Int} {s : State}

/-- The first moment at which the head can be admitted is not before `time`: by then it is ready,
and there is a token. -/
def Awaits (p : Presence (Bucket ℚ)) (time : Int) : Prop :=
  ∀ t : Int, p.headReady ≤ t → 1 ≤ frameRate.level p.frames t → time ≤ t

/-- **The dispatcher has a reason to wait**: nothing is queued, every slot is in use, or the timer
fires by the time at which the head can be admitted. -/
def Waits (p : Presence (Bucket ℚ)) (timer : Option Int) : Prop :=
  p.due.len = 0 ∨ p.reads = onlineRefreshWorkers ∨ ∃ time, timer = some time ∧ Awaits p time

/-- The dispatcher waits with a reason, unless it is woken or the node is on its way out. -/
def Watched (p : Presence (Bucket ℚ)) (timer : Option Int) : Prop :=
  p.wake = false → p.closing = false → p.stopped = false → Waits p timer

theorem Waits.later (h : Waits p timer) (hlater : Later p p') (hwake : p'.wake = false) :
    Waits p' timer := by
  rcases hlater.head with hwoken | ⟨hframes, hreads, hhead⟩
  · rw [hwake] at hwoken
    cases hwoken
  rcases Nat.eq_zero_or_pos p'.due.len with hlen | hlen
  · exact .inl hlen
  obtain ⟨hlen, hle⟩ := hhead hlen
  rcases h with hempty | hfull | ⟨time, htimer, htime⟩
  · exact absurd hempty hlen.ne'
  · exact .inr (.inl (hreads.trans hfull))
  · refine .inr (.inr ⟨time, htimer, fun t hready htoken ↦ ?_⟩)
    rw [hframes] at htoken
    exact htime t (hle.trans hready) htoken

theorem Watched.later (h : Watched p timer) (hlater : Later p p') (hgrows : Grows p p') :
    Watched p' timer := by
  intro hwake hclosing hstopped
  have hfalse {b b' : Bool} (hmono : b = true → b' = true) (hb' : b' = false) : b = false := by
    cases b with
    | false => rfl
    | true => exact (hmono rfl).symm.trans hb'
  exact (h (hfalse hlater.wake hwake) (hfalse hgrows.closing hclosing)
    (hfalse hgrows.stopped hstopped)).later hlater hwake

/-- A reservation that has to wait is given back, and its delay is no longer than the wait for a
token. -/
theorem reserveFrame_delay {frames frames' : Bucket ℚ} {t : Int}
    (h : reserveFrame frames now = (frames', some wait)) :
    0 < wait ∧ (1 ≤ frameRate.level frames' t → now + wait ≤ t) := by
  rw [reserveFrame] at h
  dsimp only at h
  split at h
  next hpos =>
    obtain ⟨rfl, hwait⟩ := Prod.mk.inj h
    cases hwait
    refine ⟨hpos, fun htoken ↦ ?_⟩
    have hfloor : (⌊(frameRate.reserve frames now).2⌋ : ℚ) ≤ (frameRate.reserve frames now).2 :=
      Int.floor_le _
    have hdelay : 0 < (frameRate.reserve frames now).2 := (Int.cast_pos.2 hpos).trans_le hfloor
    have hlimit : 0 < frameRate.limit := by norm_num [frameRate, onlineFramesPerSecond]
    have hle := Rate.add_delay_le hlimit hdelay htoken
    exact_mod_cast (add_le_add_right hfloor (now : ℚ)).trans hle
  next => cases h

theorem waits_turn (h : p.turn (frameEnv available uuidString) now = .done p' wait) :
    Waits p' (timerAt now wait) := by
  rw [turn] at h
  split at h
  next hlen =>
    cases h
    exact .inl hlen
  next =>
  dsimp only at h
  split at h
  next hready =>
    cases h
    refine .inr (.inr ⟨p.headReady, ?_, fun t ht _ ↦ ht⟩)
    rw [timerAt, if_pos hready, add_sub_cancel]
    rfl
  next =>
  split at h
  next hfull =>
    cases h
    exact .inr (.inl hfull)
  next =>
  split at h
  next frames d hreserve =>
    cases h
    have hdelay (t : Int) := reserveFrame_delay (t := t) hreserve
    refine .inr (.inr ⟨now + wait, ?_, fun t _ htoken ↦ (hdelay t).2 htoken⟩)
    rw [timerAt, if_pos (hdelay 0).1]
  next =>
    split at h <;> cases h

/-- **A turn leaves a reason to wait.** Every admission takes one off the queue, so the loop does
not end for want of turns. -/
theorem waits_dispatchLoop {n : ℕ} (h : Sound p) (hlen : p.due.len = n)
    (hloop : dispatchLoop (frameEnv available uuidString) now n p = some (p', wait)) :
    Sound p' ∧ Waits p' (timerAt now wait) := by
  induction n generalizing p with
  | zero =>
    cases hloop
    exact ⟨h, .inl hlen⟩
  | succ n ih =>
    rw [dispatchLoop] at hloop
    have hturned := h.toScheduled.turn (frameEnv available uuidString) now
    cases hturn : p.turn (frameEnv available uuidString) now with
    | done q d =>
      rw [hturn] at hloop hturned
      cases hloop
      refine ⟨?_, waits_turn hturn⟩
      rcases h.turn hturned with ⟨q, d, heq, hq⟩ | ⟨q, heq, -⟩
      · cases heq
        exact hq
      · cases heq
    | admitted q =>
      rw [hturn] at hloop hturned
      cases hturned with
      | admitted hpos _ hreads ha => exact ih (h.admitted hpos hreads ha) (by rw [ha.len]; omega) hloop
    | blocked =>
      rw [hturn] at hloop
      cases hloop

theorem watched_dispatchOnline (h : Sound p)
    (hdispatch : p.dispatchOnline (frameEnv available uuidString) now = some (p', wait)) :
    Sound p' ∧ Watched p' (timerAt now wait) := by
  rw [dispatchOnline] at hdispatch
  split at hdispatch
  next hout =>
    cases hdispatch
    refine ⟨h, fun _ hclosing hstopped ↦ ?_⟩
    rw [hclosing, hstopped] at hout
    simp at hout
  next =>
    obtain ⟨hsound, hwaits⟩ := waits_dispatchLoop h rfl hdispatch
    exact ⟨hsound, fun _ _ _ ↦ hwaits⟩

/-! ### Runs -/

/-- What the timer is set to, or about to be. -/
def State.armed (s : State) : Option (Option Int) :=
  match s.pc with
  | .arm wait => some (timerAt s.clock wait)
  | .park timer => some timer
  | .lock | .leave | .exited => none

/-- **The dispatcher watches the queue**, from the end of a turn to the next wake-up. -/
structure Watches (s : State) : Prop where
  sound : Sound s.sched
  watched : ∀ timer, s.armed = some timer → Watched s.sched timer

/-- A step to where nothing is watched. -/
theorem Watches.of_none (hsound : Sound s.sched) (harmed : s.armed = none) : Watches s :=
  ⟨hsound, fun timer h ↦ by rw [harmed] at h; cases h⟩

/-- A step of another goroutine is one of the scheduler. -/
theorem exists_step {s' : State} {e : PresenceEvent ι} (h : Sound s.sched)
    (hnext : s.next (frameEnv available uuidString) (.other e) = some s') :
    allows s.clock e = true ∧ ∃ sched entries, Step s.sched e entries sched ∧ s' = { s with sched } := by
  obtain ⟨hother, hnext⟩ := ite_none_right_eq_some.1 hnext
  obtain ⟨run, hrun, rfl⟩ := map_eq_some_iff.1 hnext
  obtain ⟨entries, hstep, -⟩ := Sound.step_cases (s := { sched := s.sched }) h hrun
  exact ⟨hother, _, entries, hstep, rfl⟩

theorem Watches.next {s' : State} {e : Event ι} (h : Watches s)
    (hnext : s.next (frameEnv available uuidString) e = some s') : Watches s' := by
  cases e with
  | other e =>
    obtain ⟨hother, sched, entries, hstep, rfl⟩ := exists_step h.sound hnext
    refine ⟨h.sound.step hstep, fun timer htimer ↦ ?_⟩
    exact (h.watched timer htimer).later (hstep.later h.sound hother) (hstep.grows h.sound)
  | dispatch =>
    simp only [State.next] at hnext
    split at hnext
    next =>
      obtain ⟨⟨sched, wait⟩, hdispatch, rfl⟩ := map_eq_some_iff.1 hnext
      obtain ⟨hsound, hwatched⟩ := watched_dispatchOnline h.sound hdispatch
      exact ⟨hsound, fun timer htimer ↦ some.inj htimer ▸ hwatched⟩
    next => cases hnext
  | arm =>
    simp only [State.next] at hnext
    split at hnext
    next wait hpc =>
      cases hnext
      refine ⟨h.sound, fun timer htimer ↦ h.watched timer ?_⟩
      rw [State.armed, hpc]
      exact htimer
    next => cases hnext
  | wake =>
    simp only [State.next] at hnext
    split at hnext
    next =>
      obtain ⟨-, ⟨⟩⟩ := ite_none_right_eq_some.1 hnext
      exact .of_none h.sound.received rfl
    next => cases hnext
  | fire =>
    simp only [State.next] at hnext
    split at hnext
    next =>
      obtain ⟨-, ⟨⟩⟩ := ite_none_right_eq_some.1 hnext
      exact .of_none h.sound rfl
    next => cases hnext
  | done =>
    simp only [State.next] at hnext
    split at hnext
    next =>
      cases hnext
      exact .of_none h.sound rfl
    next => cases hnext
  | stop order =>
    obtain ⟨⟨-, horder⟩, ⟨⟩⟩ := ite_none_right_eq_some.1 hnext
    exact .of_none (h.sound.stop horder) rfl
  | tick duration =>
    simp only [State.next] at hnext
    split at hnext
    next => cases hnext
    next hpc =>
      cases hnext
      refine ⟨h.sound, fun timer htimer ↦ h.watched timer ?_⟩
      -- a timer that is set fires when it fires
      unfold State.armed at htimer ⊢
      cases hp : s.pc with rw [hp] at htimer
      | arm wait => exact absurd hp (hpc wait)
      | park timer => exact htimer
      | lock | leave | exited => cases htimer

theorem Watches.of_reachable {start : Int}
    (h : (dispatcher ι (frameEnv available uuidString) start).Reachable s) : Watches s := by
  refine System.invariant (I := Watches) ?_ (fun _ _ _ _ hs hnext ↦ hs.next hnext) h
  rintro s rfl
  exact .of_none (sound_new _) rfl

/-- Every read that ends wakes the dispatcher. -/
theorem wake_of_finish {s' : State} {k : ℕ} {result : Option (List ι)} (h : Watches s)
    (hnext : s.next (frameEnv available uuidString) (.other (.finish k result now)) = some s') :
    s'.sched.wake = true := by
  obtain ⟨-, sched, entries, hstep, rfl⟩ := exists_step h.sound hnext
  cases hstep with
  | finished hk =>
    show (finishOnlineRead _ _ _ _).1.wake = true
    rw [(h.sound.toScheduled.finished hk).frame]

/-- **No lost wake-up.** When the dispatcher is parked with an empty channel and the node is neither
closing nor stopped, then nothing is queued; or all the slots are in use, and every read that ends
wakes the dispatcher; or the timer fires no later than the first moment at which the head of the
queue is ready and there is a token. So a connection that could be admitted is not left waiting: the
timer has fired. -/
theorem no_lost_wakeup {s : State} {start : Int} {timer : Option Int}
    (h : (dispatcher ι (frameEnv available uuidString) start).Reachable s) (hpc : s.pc = .park timer)
    (hwake : s.sched.wake = false) (hclosing : s.sched.closing = false)
    (hstopped : s.sched.stopped = false) :
    (s.sched.due.len = 0 ∨
      (s.sched.reads = onlineRefreshWorkers ∧ s.sched.inFlight.length = onlineRefreshWorkers ∧
        ∀ k result now s', s.next (ι := ι) (frameEnv available uuidString) (.other (.finish k result now)) =
          some s' → s'.sched.wake = true) ∨
      ∃ time, timer = some time ∧ ∀ t : Int, (s.sched.subs (s.sched.due.slot 0)).readyAt ≤ t →
        1 ≤ frameRate.level s.sched.frames t → time ≤ t) ∧
    (0 < s.sched.due.len → s.sched.reads ≠ onlineRefreshWorkers →
      (s.sched.subs (s.sched.due.slot 0)).readyAt ≤ s.clock →
      1 ≤ frameRate.level s.sched.frames s.clock →
      s.next (ι := ι) (frameEnv available uuidString) .fire = some { s with pc := .lock }) := by
  have hwatches := Watches.of_reachable h
  have hwaits : Waits s.sched timer := by
    refine hwatches.watched timer ?_ hwake hclosing hstopped
    rw [State.armed, hpc]
  refine ⟨?_, fun hlen hreads hready htoken ↦ ?_⟩
  · refine hwaits.imp_right (Or.imp_left fun hfull ↦ ⟨hfull, ?_, fun k result now s' hnext ↦ ?_⟩)
    · exact_mod_cast hwatches.sound.reads.symm.trans hfull
    · exact wake_of_finish hwatches hnext
  · rcases hwaits with hempty | hfull | ⟨time, rfl, htime⟩
    · exact absurd hempty hlen.ne'
    · exact absurd hfull hreads
    · simp only [State.next, hpc]
      exact if_pos (htime s.clock hready htoken)

namespace DispatcherDemo

/-- A client subscribes and is read once; the dispatcher parks until its next snapshot is due. -/
def readOnce : List (Event Unit) :=
  [.other (.subscribe 1 { revision := 1, userIds := ["nx__a"] } 0), .dispatch, .arm, .wake, .dispatch, .arm,
    .other .take, .tick 5, .other (.finish 0 (some []) 5), .wake, .dispatch, .arm]

end DispatcherDemo

open DispatcherDemo in
theorem no_lost_wakeup_demo :
    ∃ s, System.replay (State.next (frameEnv true some)) { clock := 0 } readOnce = some s ∧
      s.pc = .park (some 30000000005) ∧ s.sched.due.len = 1 ∧
      ∀ t : Int, (s.sched.subs (s.sched.due.slot 0)).readyAt ≤ t → 1 ≤ frameRate.level s.sched.frames t →
        30000000005 ≤ t := by
  have hrun : (System.replay (State.next (frameEnv true some)) { clock := 0 } readOnce).map
      (fun s ↦ (s.pc, s.sched.due.len, s.sched.reads, s.sched.wake, s.sched.closing, s.sched.stopped)) =
      some (.park (some 30000000005), 1, 0, false, false, false) := by
    decide +kernel
  obtain ⟨s, hs, heq⟩ := Option.map_eq_some_iff.1 hrun
  simp only [Prod.mk.injEq] at heq
  obtain ⟨hpc, hlen, hreads, hwake, hclosing, hstopped⟩ := heq
  have hreach : (dispatcher Unit (frameEnv true some) 0).Reachable s := System.reachable_of_replay hs
  refine ⟨s, hs, hpc, hlen, ?_⟩
  rcases (no_lost_wakeup hreach hpc hwake hclosing hstopped).1 with hempty | ⟨hfull, -⟩ | ⟨time, htimer, htime⟩
  · rw [hlen] at hempty
    cases hempty
  · rw [hreads] at hfull
    cases hfull
  · obtain rfl := Option.some.inj htimer
    exact htime

end Dispatcher

end Nexo.Gateway
