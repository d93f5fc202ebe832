import Nexo.Gateway.RefreshPool

/-!
# When a presence job is stranded

A worker leaves when `g.ctx` is done and the queue is empty, on the ground that nothing refills the
queue then. The operations are cancelled before `g.ctx`, so an operation that the dispatcher starts
later is not registered; but one that it has **registered and not yet sent** when `g.ctx` ends is:
the dispatcher holds `mu` there, which `Shutdown` takes only for the clients that it drains. A
client that has unregistered and is about to remove its subscriptions is not among them
(`finishesLast`).

The workers strand nothing in a run in which `g.ctx` never ends at such a moment (`Manned`).
-/

namespace Nexo.Gateway.RefreshPool

open Machine List Option

variable {s s' : State} {e : Event}

/-- The dispatcher is about to send a registered job. -/
def State.handing (s : State) : Bool :=
  match s.dispatcher with
  | .send _ registered => registered
  | _ => false

def HardPc.cancels : HardPc → Bool
  | .cancel _ => true
  | _ => false

/-- The step is a `g.cancel()`, of `Shutdown` or of the function that the end of its context starts.
-/
def State.cancels (s : State) : Event → Bool
  | .main => s.pc = .cancel
  | .hard => s.hard.cancels
  | _ => false

/-- **`g.ctx` does not end while a registered job is about to be sent.** -/
def Clear (s : State) (e : Event) : Prop := s.cancels e = true → s.handing = false

instance : Decidable (Clear s e) := by unfold Clear; infer_instance

/-! ### The invariant -/

/-- **The workers are there for every registered job.** -/
structure Manned (s : State) : Prop where
  main : s.pc = .cancel → s.opsDone = true
  hard : s.hard.cancels = true → s.opsDone = true
  /-- no operation is registered once `g.ctx` is done, and none is about to be sent -/
  ctx : s.ctxDone = true → s.opsDone = true ∧ s.handing = false
  draining : ∀ w ∈ s.workers, w.draining = true → s.ctxDone = true
  /-- a worker leaves no registered job behind -/
  exited : ∀ w ∈ s.workers, w.pc = .exited → s.ctxDone = true ∧ ∀ job ∈ s.jobs, job.registered = false
  /-- without workers, nothing is dispatched -/
  started : s.workers = [] → s.jobs = [] ∧ (s.dispatcher = .start ∨
    s.dispatcher = .begin_ ∧ s.workSealed = true ∨ s.dispatcher = .exited)

/-- **Nothing is stranded.** -/
theorem Manned.not_stranded (h : Manned s) : ¬ s.Stranded := by
  rintro ⟨hexited, hjob⟩
  cases hworkers : s.workers with
  | nil =>
    obtain ⟨hjobs, hdispatcher⟩ := h.started hworkers
    rcases hjob with ⟨job, hmem, -⟩ | ⟨i, hsend⟩
    · rw [hjobs] at hmem
      cases hmem
    · rw [hsend] at hdispatcher
      rcases hdispatcher with h | ⟨h, -⟩ | h <;> cases h
  | cons w ws =>
    have hw : w ∈ s.workers := hworkers ▸ mem_cons_self
    obtain ⟨hctx, hjobs⟩ := h.exited w hw (hexited w hw)
    rcases hjob with ⟨job, hmem, hregistered⟩ | ⟨i, hsend⟩
    · exact Bool.false_ne_true ((hjobs job hmem).symm.trans hregistered)
    · have hhanding := (h.ctx hctx).2
      rw [State.handing, hsend] at hhanding
      cases hhanding

/-! ### Steps of the others -/

/-- **A step that is neither the dispatcher's nor a worker's**: it may cancel, the operations first.
-/
structure Advances (s : State) (e : Event) (s' : State) : Prop where
  workers : s'.workers = s.workers
  jobs : s'.jobs = s.jobs
  dispatcher : s'.dispatcher = s.dispatcher
  opsDone : s.opsDone = true → s'.opsDone = true
  workSealed : s.workSealed = true → s'.workSealed = true
  main : s'.pc = .cancel → s.pc = .cancel ∨ s'.opsDone = true
  hard : s'.hard.cancels = true → s.hard.cancels = true ∨ s'.opsDone = true
  ctx : s'.ctxDone = true → s.ctxDone = true ∨ s.cancels e = true
  ctxDone : s.ctxDone = true → s'.ctxDone = true

theorem Manned.opsDone_of_cancels (h : Manned s) (hcancels : s.cancels e = true) : s.opsDone = true := by
  cases e with
  | main => exact h.main (of_decide_eq_true hcancels)
  | hard => exact h.hard hcancels
  | _ => cases hcancels

theorem Manned.advances (h : Manned s) (ha : Advances s e s') (hclear : Clear s e) : Manned s' where
  main hpc := (ha.main hpc).elim (fun hpc ↦ ha.opsDone (h.main hpc)) id
  hard hhard := (ha.hard hhard).elim (fun hhard ↦ ha.opsDone (h.hard hhard)) id
  ctx hctx := by
    rw [State.handing, ha.dispatcher]
    rcases ha.ctx hctx with hctx | hcancels
    · exact ⟨ha.opsDone (h.ctx hctx).1, (h.ctx hctx).2⟩
    · exact ⟨ha.opsDone (h.opsDone_of_cancels hcancels), hclear hcancels⟩
  draining w hw hdraining := ha.ctxDone (h.draining w (ha.workers ▸ hw) hdraining)
  exited w hw hpc := by
    obtain ⟨hctx, hjobs⟩ := h.exited w (ha.workers ▸ hw) hpc
    exact ⟨ha.ctxDone hctx, ha.jobs ▸ hjobs⟩
  started hworkers := by
    rw [ha.jobs, ha.dispatcher]
    obtain ⟨hjobs, hdispatcher⟩ := h.started (ha.workers.symm.trans hworkers)
    exact ⟨hjobs, hdispatcher.imp_right (Or.imp_left (And.imp_right ha.workSealed))⟩

/-- A step that cancels nothing: it may change what the end of the context starts, but not call it.
-/
theorem Advances.of_move (hworkers : s'.workers = s.workers) (hjobs : s'.jobs = s.jobs)
    (hdispatcher : s'.dispatcher = s.dispatcher) (hpc : s'.pc = .cancel → s.pc = .cancel)
    (hhard : s'.hard = s.hard ∨ s'.hard.cancels = false) (hops : s.opsDone = true → s'.opsDone = true)
    (hsealed : s.workSealed = true → s'.workSealed = true) (hctx : s'.ctxDone = s.ctxDone) :
    Advances s e s' where
  workers := hworkers
  jobs := hjobs
  dispatcher := hdispatcher
  opsDone := hops
  workSealed := hsealed
  main h := .inl (hpc h)
  hard h := .inl (hhard.elim (fun heq ↦ heq ▸ h) fun hfalse ↦ by rw [h] at hfalse; cases hfalse)
  ctx h := .inl (hctx ▸ h)
  ctxDone := hctx ▸ id

theorem closeNext_advances {i : ℕ} {c : Client} (h : s.closeNext i c = some s') : Advances s e s' := by
  unfold State.closeNext at h
  split at h
  case h_6 =>
    split at h
    · cases h
      exact .of_move rfl rfl rfl id (.inl rfl) id id rfl
    · cases h
  all_goals cases h
  all_goals exact .of_move rfl rfl rfl id (.inl rfl) id id rfl

theorem mainNext_advances (h : s.mainNext = some s') : Advances s .main s' := by
  unfold State.mainNext at h
  cases hpc : s.pc with rw [hpc] at h
  | idle | returned => cases h
  | closing | record | cancelRun | closeUsers =>
    cases h
    exact .of_move rfl rfl rfl (by simp) (.inl rfl) id id rfl
  | arm clients =>
    cases h
    exact .of_move rfl rfl rfl (by simp) (.inr rfl) id id rfl
  | drain clients todo =>
    cases todo with
    | nil =>
      cases h
      exact .of_move rfl rfl rfl (by simp) (.inl rfl) id id rfl
    | cons i todo =>
      obtain ⟨c, -, rfl⟩ := map_eq_some_iff.1 h
      split <;> exact .of_move rfl rfl rfl (by simp) (.inl rfl) id id rfl
  | finishDrain clients i todo =>
    obtain ⟨-, ⟨⟩⟩ := ite_none_right_eq_some.1 h
    exact .of_move rfl rfl rfl (by simp) (.inl rfl) id id rfl
  | poll clients | late clients =>
    cases h
    exact .of_move rfl rfl rfl (by dsimp only; split <;> simp) (.inl rfl) id id rfl
  | lateCancelOps clients =>
    cases h
    exact .of_move rfl rfl rfl (by simp) (.inl rfl) (fun _ ↦ rfl) id rfl
  | lateClose todo =>
    cases todo with
    | nil =>
      cases h
      exact .of_move rfl rfl rfl (by simp) (.inl rfl) id id rfl
    | cons i todo =>
      obtain ⟨-, ⟨⟩⟩ := ite_none_right_eq_some.1 h
      exact .of_move rfl rfl rfl (by simp) (.inl rfl) id id rfl
  | cancelOps =>
    cases h
    exact ⟨rfl, rfl, rfl, fun _ ↦ rfl, id, fun _ ↦ .inr rfl, .inl, .inl, id⟩
  | cancel =>
    cases h
    exact ⟨rfl, rfl, rfl, id, id, fun _ ↦ .inl hpc, .inl, fun _ ↦ .inr (decide_eq_true hpc), fun _ ↦ rfl⟩
  | seal_ =>
    cases h
    exact .of_move rfl rfl rfl (by simp) (.inl rfl) id (fun _ ↦ rfl) rfl
  | wait_ =>
    obtain ⟨-, ⟨⟩⟩ := ite_none_right_eq_some.1 h
    exact .of_move rfl rfl rfl (by simp) (.inl rfl) id id rfl
  | stopHard =>
    dsimp only at h
    split at h
    · cases h
      exact .of_move rfl rfl rfl (by simp) (.inr rfl) id id rfl
    · cases h
      exact .of_move rfl rfl rfl (by simp) (.inl rfl) id id rfl
    · cases h

theorem hardNext_advances (h : s.hardNext = some s') : Advances s .hard s' := by
  unfold State.hardNext at h
  cases hhard : s.hard with rw [hhard] at h
  | none | stopped => cases h
  | armed clients =>
    obtain ⟨-, ⟨⟩⟩ := ite_none_right_eq_some.1 h
    exact ⟨rfl, rfl, rfl, id, id, .inl, nofun, .inl, id⟩
  | cancelOps clients =>
    cases h
    exact ⟨rfl, rfl, rfl, fun _ ↦ rfl, id, .inl, fun _ ↦ .inr rfl, .inl, id⟩
  | cancel clients =>
    cases h
    have hcancels : s.cancels .hard = true := by rw [State.cancels, hhard]; rfl
    exact ⟨rfl, rfl, rfl, id, id, .inl, nofun, fun _ ↦ .inr hcancels, fun _ ↦ rfl⟩
  | close todo =>
    cases todo with
    | nil => cases h
    | cons i todo =>
      obtain ⟨-, ⟨⟩⟩ := ite_none_right_eq_some.1 h
      exact ⟨rfl, rfl, rfl, id, id, .inl, nofun, .inl, id⟩

/-! ### Steps of the dispatcher and the workers -/

theorem State.handing_eq_false (h : ∀ i, s.dispatcher ≠ .send i true) : s.handing = false := by
  unfold State.handing
  split
  next i registered hd =>
    cases registered with
    | false => rfl
    | true => exact absurd hd (h i)
  next => rfl

/-- **A step of the dispatcher with workers.** It sends what it had in hand, and takes nothing in
hand that is registered once the operations are cancelled. -/
theorem Manned.dispatched (h : Manned s) (hne : s.workers ≠ []) (hworkers : s'.workers = s.workers)
    (hpc : s'.pc = s.pc) (hhard : s'.hard = s.hard) (hops : s'.opsDone = s.opsDone)
    (hctx : s'.ctxDone = s.ctxDone) (hjobs : ∀ job ∈ s'.jobs, job ∈ s.jobs ∨ job.registered = s.handing)
    (hhanding : s.opsDone = true → s'.handing = false) : Manned s' where
  main hcancel := hops ▸ h.main (hpc ▸ hcancel)
  hard hcancels := hops ▸ h.hard (hhard ▸ hcancels)
  ctx hdone := by
    rw [hctx] at hdone
    exact ⟨hops ▸ (h.ctx hdone).1, hhanding (h.ctx hdone).1⟩
  draining w hw hdraining := hctx ▸ h.draining w (hworkers ▸ hw) hdraining
  exited w hw hexited := by
    obtain ⟨hdone, hnone⟩ := h.exited w (hworkers ▸ hw) hexited
    refine ⟨hctx ▸ hdone, fun job hjob ↦ ?_⟩
    rcases hjobs job hjob with hjob | hregistered
    · exact hnone job hjob
    · exact hregistered.trans (h.ctx hdone).2
  started hnil := absurd (hworkers.symm.trans hnil) hne

/-- The dispatcher has begun, and not exited. -/
def DispatchPc.runs : DispatchPc → Bool
  | .start | .begin_ | .exited => false
  | _ => true

section

variable (h : Manned s)
include h

theorem Manned.workers_ne_nil (hruns : s.dispatcher.runs = true) : s.workers ≠ [] := by
  intro hnil
  rcases (h.started hnil).2 with hd | ⟨hd, -⟩ | hd
  all_goals
    rw [hd] at hruns
    cases hruns

/-- A worker is started. -/
theorem Manned.start : Manned { s with workers := s.workers ++ [{}] } where
  main := h.main
  hard := h.hard
  ctx := h.ctx
  draining w hw hdraining := by
    rcases mem_append.1 hw with hw | hw
    · exact h.draining w hw hdraining
    · obtain rfl := mem_singleton.1 hw
      cases hdraining
  exited w hw hexited := by
    rcases mem_append.1 hw with hw | hw
    · exact h.exited w hw hexited
    · obtain rfl := mem_singleton.1 hw
      cases hexited
  started hnil := absurd hnil (by simp)

/-- The dispatcher moves before its first turn, and never to one without workers. -/
theorem Manned.starts {pc : DispatchPc} (hsend : ∀ i, pc ≠ .send i true)
    (hpc : s.workers = [] → s.jobs = [] →
      pc = .start ∨ pc = .begin_ ∧ s.workSealed = true ∨ pc = .exited) :
    Manned { s with dispatcher := pc } where
  main := h.main
  hard := h.hard
  ctx hctx := ⟨(h.ctx hctx).1, State.handing_eq_false hsend⟩
  draining := h.draining
  exited := h.exited
  started hnil := ⟨(h.started hnil).1, hpc hnil (h.started hnil).1⟩

theorem Manned.dispatchNext {input : Input} (hnext : s.dispatchNext input = some s') :
    Manned s' := by
  have hne := h.workers_ne_nil
  unfold State.dispatchNext at hnext
  cases hd : s.dispatcher with rw [hd] at hnext hne
  | start =>
    dsimp only at hnext
    split at hnext
    next =>
      cases hnext
      simpa only [hd] using h.start
    next hfull =>
      cases hnext
      refine h.starts (by simp) fun hnil _ ↦ .inr (.inl ⟨rfl, ?_⟩)
      -- without workers, it is the seal that has ended `startPool`
      rw [hnil] at hfull
      simpa [onlineRefreshWorkers] using hfull
  | begin_ =>
    cases hnext
    refine h.starts (fun i ↦ by split <;> simp) fun hnil _ ↦ .inr (.inr ?_)
    rcases (h.started hnil).2 with hd' | ⟨-, hsealed⟩ | hd'
    · exact absurd (hd.symm.trans hd') (by simp)
    · rw [if_pos hsealed]
    · exact absurd (hd.symm.trans hd') (by simp)
  | lock | stopLock =>
    obtain ⟨-, ⟨⟩⟩ := ite_none_right_eq_some.1 hnext
    exact h.dispatched (hne rfl) rfl rfl rfl rfl rfl (fun _ ↦ .inl) fun _ ↦ rfl
  | check | slots | reserve =>
    cases hnext
    refine h.dispatched (hne rfl) rfl rfl rfl rfl rfl (fun _ ↦ .inl) fun _ ↦ ?_
    exact State.handing_eq_false fun i ↦ by dsimp only; split <;> simp
  | head =>
    dsimp only at hnext
    split at hnext
    next =>
      cases hnext
      exact h.dispatched (hne rfl) rfl rfl rfl rfl rfl (fun _ ↦ .inl) fun _ ↦ rfl
    next =>
      cases hnext
      refine h.dispatched (hne rfl) rfl rfl rfl rfl rfl (fun _ ↦ .inl) fun _ ↦ ?_
      exact State.handing_eq_false fun i ↦ by dsimp only; split <;> simp
  | op i =>
    cases hnext
    refine h.dispatched (hne rfl) rfl rfl rfl rfl rfl (fun _ ↦ .inl) fun hops ↦ ?_
    rw [State.handing, State.registers, hops]
    simp
  | send i registered =>
    obtain ⟨-, ⟨⟩⟩ := ite_none_right_eq_some.1 hnext
    refine h.dispatched (hne rfl) rfl rfl rfl rfl rfl (fun job hjob ↦ ?_) fun _ ↦ rfl
    refine (mem_append.1 hjob).imp_right fun hjob ↦ ?_
    rw [mem_singleton.1 hjob, State.handing, hd]
  | withCancel | pop | count | note | unlock | stop =>
    cases hnext
    exact h.dispatched (hne rfl) rfl rfl rfl rfl rfl (fun _ ↦ .inl) fun _ ↦ rfl
  | park =>
    dsimp only at hnext
    split at hnext
    case isTrue =>
      cases hnext
      exact h.dispatched (hne rfl) rfl rfl rfl rfl rfl (fun _ ↦ .inl) fun _ ↦ rfl
    case isFalse =>
      obtain ⟨-, ⟨⟩⟩ := ite_none_right_eq_some.1 hnext
      exact h.dispatched (hne rfl) rfl rfl rfl rfl rfl (fun _ ↦ .inl) fun _ ↦ rfl
  | exited => cases hnext

/-- **A step of a worker.** It leaves the loop only when `g.ctx` is done, and exits only when the
queue is empty. -/
theorem Manned.worked {k : ℕ} {w : Worker} (hworkers : s'.workers = s.workers.set k w)
    (hdispatcher : s'.dispatcher = s.dispatcher) (hpc : s'.pc = s.pc) (hhard : s'.hard = s.hard)
    (hops : s'.opsDone = s.opsDone) (hctx : s'.ctxDone = s.ctxDone) (hsealed : s'.workSealed = s.workSealed)
    (hjobs : ∀ job ∈ s'.jobs, job ∈ s.jobs) (hdraining : w.draining = true → s.ctxDone = true)
    (hexited : w.pc = .exited → s.ctxDone = true ∧ s'.jobs = []) : Manned s' where
  main hcancel := hops ▸ h.main (hpc ▸ hcancel)
  hard hcancels := hops ▸ h.hard (hhard ▸ hcancels)
  ctx hdone := by
    rw [State.handing, hdispatcher, hops]
    exact h.ctx (hctx ▸ hdone)
  draining w' hw' hdraining' := by
    rw [hworkers] at hw'
    rcases mem_or_eq_of_mem_set hw' with hmem | rfl
    · exact hctx ▸ h.draining w' hmem hdraining'
    · exact hctx ▸ hdraining hdraining'
  exited w' hw' hexited' := by
    rw [hworkers] at hw'
    rcases mem_or_eq_of_mem_set hw' with hmem | rfl
    · obtain ⟨hdone, hnone⟩ := h.exited w' hmem hexited'
      exact ⟨hctx ▸ hdone, fun job hjob ↦ hnone job (hjobs job hjob)⟩
    · obtain ⟨hdone, hnil⟩ := hexited hexited'
      exact ⟨hctx ▸ hdone, by rw [hnil]; simp⟩
  started hnil := by
    rw [hworkers, set_eq_nil_iff] at hnil
    obtain ⟨hempty, hd⟩ := h.started hnil
    rw [hdispatcher, hsealed]
    exact ⟨eq_nil_iff_forall_not_mem.2 fun job hjob ↦ by simpa [hempty] using hjobs job hjob, hd⟩

theorem Manned.workNext {k : ℕ} {w : Worker} {input : Input} (hw : s.workers[k]? = some w)
    (hnext : s.workNext k w input = some s') : Manned s' := by
  have hdraining : w.draining = true → s.ctxDone = true := h.draining w (mem_of_getElem? hw)
  unfold State.workNext at hnext
  cases hpc : w.pc with rw [hpc] at hnext
  | select =>
    dsimp only at hnext
    split at hnext
    next job jobs _ hjobs =>
      cases hnext
      refine h.worked rfl rfl rfl rfl rfl rfl rfl (fun job' hjob' ↦ ?_) hdraining nofun
      · exact hjobs ▸ mem_cons_of_mem job hjob'
    next => cases hnext
    next =>
      split at hnext
      next hinner =>
        obtain ⟨hempty, ⟨⟩⟩ := ite_none_right_eq_some.1 hnext
        exact h.worked rfl rfl rfl rfl rfl rfl rfl (fun _ ↦ id) hdraining fun _ ↦ ⟨hdraining hinner, hempty⟩
      next =>
        obtain ⟨hctx, ⟨⟩⟩ := ite_none_right_eq_some.1 hnext
        exact h.worked rfl rfl rfl rfl rfl rfl rfl (fun _ ↦ id) (fun _ ↦ hctx) (by simp)
  | read | unlock =>
    cases hnext
    refine h.worked rfl rfl rfl rfl rfl rfl rfl (fun _ ↦ id) hdraining fun hexited ↦ ?_
    dsimp only at hexited
    split at hexited <;> cases hexited
  | asking | cancel =>
    cases hnext
    exact h.worked rfl rfl rfl rfl rfl rfl rfl (fun _ ↦ id) hdraining (by simp)
  | lock | close =>
    obtain ⟨-, ⟨⟩⟩ := ite_none_right_eq_some.1 hnext
    exact h.worked rfl rfl rfl rfl rfl rfl rfl (fun _ ↦ id) hdraining (by simp)
  | adopt i =>
    obtain ⟨c, -, rfl⟩ := map_eq_some_iff.1 hnext
    split <;> exact h.worked rfl rfl rfl rfl rfl rfl rfl (fun _ ↦ id) hdraining (by simp)
  | exited => cases hnext

/-! ### Runs -/

theorem Manned.next (hclear : Clear s e) (hnext : s.next e = some s') : Manned s' := by
  have hsame {s₁ : State} (hs' : some s₁ = some s') (ha : Advances s e s₁) : Manned s' :=
    some.inj hs' ▸ h.advances ha hclear
  cases e with
  | open_ slot =>
    simp only [State.next] at hnext
    split at hnext
    next => cases hnext
    next => exact hsame hnext (.of_move rfl rfl rfl id (.inl rfl) id id rfl)
  | adopt i =>
    obtain ⟨c, -, hc⟩ := bind_eq_some_iff.1 hnext
    split at hc
    · cases hc
    · exact hsame hc (.of_move rfl rfl rfl id (.inl rfl) id id rfl)
  | set i input =>
    obtain ⟨c, -, hc⟩ := bind_eq_some_iff.1 hnext
    obtain ⟨-, hs'⟩ := ite_none_right_eq_some.1 hc
    refine hsame hs' ?_
    split <;> exact .of_move rfl rfl rfl id (.inl rfl) id id rfl
  | mark | kick | finishDrain =>
    obtain ⟨c, -, hc⟩ := bind_eq_some_iff.1 hnext
    obtain ⟨-, hs'⟩ := ite_none_right_eq_some.1 hc
    exact hsame hs' (.of_move rfl rfl rfl id (.inl rfl) id id rfl)
  | close i =>
    obtain ⟨c, -, hc⟩ := bind_eq_some_iff.1 hnext
    exact h.advances (closeNext_advances hc) hclear
  | dispatch input => exact h.dispatchNext hnext
  | work k input =>
    obtain ⟨w, hw, hnext⟩ := bind_eq_some_iff.1 hnext
    exact h.workNext hw hnext
  | stopRun | expire => exact hsame hnext (.of_move rfl rfl rfl id (.inl rfl) id id rfl)
  | shutdown =>
    obtain ⟨-, hs'⟩ := ite_none_right_eq_some.1 hnext
    exact hsame hs' (.of_move rfl rfl rfl (by simp) (.inl rfl) id id rfl)
  | main => exact h.advances (mainNext_advances hnext) hclear
  | hard => exact h.advances (hardNext_advances hnext) hclear

end

theorem Manned.of_reachable {limits : Limits} (h : ((refreshPool limits).restrict Clear).Reachable s) :
    Manned s := by
  refine System.invariant (I := Manned) ?_ ?_ h
  · rintro s rfl
    exact ⟨by simp, by simp [HardPc.cancels], by simp, by simp, by simp, fun _ ↦ ⟨rfl, .inl rfl⟩⟩
  · rintro s e s' - hmanned ⟨hnext, hclear⟩
    exact hmanned.next hclear hnext

/-- **No presence job is stranded**, in a run in which `g.ctx` never ends between the registration
of an operation and the send of its job. -/
theorem no_stranded_job {limits : Limits} (h : ((refreshPool limits).restrict Clear).Reachable s) :
    ¬ s.Stranded :=
  (Manned.of_reachable h).not_stranded

namespace RefreshPoolDemo

/-- The pool starts, a client subscribes, and the dispatcher has an operation registered for it. -/
def servesClient : List Event :=
  List.replicate 6 (.dispatch {}) ++ [.open_ ⟨"u", "", ""⟩, .adopt 0, .set 0 {}] ++
    List.replicate 7 (.dispatch {})

/-- `Shutdown` up to its wait, without a client to drain. -/
def shutsDown : List Event := .shutdown :: List.replicate 11 .main

/-- The worker sees the end of `g.ctx`, and an empty queue. -/
def leaves (k : ℕ) : List Event := [.work k { yes := false }, .work k { yes := false }]

/-- The dispatcher finishes its turn, and ends with the run. -/
def endsTurn : List Event := List.replicate 6 (.dispatch {}) ++ List.replicate 3 (.dispatch { yes := false })

/-- **A client closes while the dispatcher serves it**: it has unregistered, so that `Shutdown`
neither drains it nor waits for it, and its subscription stands until the dispatcher gives `mu`
back. -/
def finishesLast : List Event :=
  servesClient ++ List.replicate 5 (.close 0) ++ shutsDown ++ leaves 0 ++ leaves 1 ++ leaves 2 ++ leaves 3 ++
    endsTurn ++ [.close 0]

/-- The worker runs the queued job on its way out. -/
def drains : List Event :=
  [.work 0 { yes := false }, .work 0 {}, .work 0 { yes := false }] ++ List.replicate 4 (.work 0 {}) ++
    [.work 0 { yes := false }]

end RefreshPoolDemo

open RefreshPoolDemo in
/-- The job is in the queue and everyone is gone: `Shutdown` waits for its deadline. -/
theorem stranded_job :
    ∃ s, (refreshPool ⟨0, 0, 0, 0⟩).Reachable s ∧ s.Stranded ∧ s.pc = .wait_ ∧ s.mainNext = none := by
  have hrun : (System.replay State.next { users := UserMap.new ⟨0, 0, 0, 0⟩ } finishesLast).map
      (fun s ↦ (s.workers, s.jobs, s.pc, s.mainNext.isNone)) =
      some (List.replicate 4 ⟨.exited, true⟩, [⟨0, true⟩], .wait_, true) := by
    decide +kernel
  obtain ⟨s, hs, heq⟩ := Option.map_eq_some_iff.1 hrun
  simp only [Prod.mk.injEq, Option.isNone_iff_eq_none] at heq
  obtain ⟨hworkers, hjobs, hpc, hmain⟩ := heq
  refine ⟨s, System.reachable_of_replay hs, ⟨?_, .inl ⟨⟨0, true⟩, by simp [hjobs], rfl⟩⟩, hpc, hmain⟩
  intro w hw
  rw [hworkers] at hw
  rw [List.eq_of_mem_replicate hw]

open RefreshPoolDemo in
theorem no_stranded_job_demo :
    ∃ s, ((refreshPool ⟨0, 0, 0, 0⟩).restrict Clear).Reachable s ∧ s.pc = .returned ∧ s.deadline = false ∧
      ¬ s.Stranded := by
  have hrun : (System.replay (fun s e ↦ if Clear s e then s.next e else none)
      { users := UserMap.new ⟨0, 0, 0, 0⟩ }
      (servesClient ++ endsTurn.take 6 ++ List.replicate 6 (.close 0) ++ shutsDown ++ drains ++ leaves 1 ++
        leaves 2 ++ leaves 3 ++ endsTurn.drop 6 ++ [.main, .main])).map
      (fun s ↦ (s.pc, s.deadline)) = some (.returned, false) := by
    decide +kernel
  obtain ⟨s, hs, heq⟩ := Option.map_eq_some_iff.1 hrun
  obtain ⟨hpc, hdeadline⟩ := Prod.mk.inj heq
  have hreach : ((refreshPool ⟨0, 0, 0, 0⟩).restrict Clear).Reachable s :=
    System.reachable_restrict_of_replay hs
  exact ⟨s, hreach, hpc, hdeadline, no_stranded_job hreach⟩

end Nexo.Gateway.RefreshPool
