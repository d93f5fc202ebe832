import Nexo.Gateway.PresenceRuns

/-!
# What a step does to one subscription

`Presence.Effect` says what became of subscription `j` in a step, and which entries of the history
are about its client. Invariants that speak of one connection at a time are proved by cases on it.

A step leaves the subscription as it is, marks it (`Nudge`), gives it a new revision (`Revised`),
starts or ends a read of it, or drops it because its client or the dispatcher is done; which of
these is read off the operation once, in `Step.effect`. What no step takes back (`Grows`) and what
becomes of the jobs (`Step.jobs`) are stated apart from it.
-/

namespace Nexo.Gateway

open Machine List Function Presence

/-- The connection that an entry of the history is about. -/
def PresenceEntry.client : PresenceEntry → ℕ
  | .revised c _ | .admitted c _ _ _ _ | .finished c _ => c

/-- Is it the dispatch of a read? -/
def PresenceEntry.dispatch : PresenceEntry → Bool
  | .admitted .. => true
  | .revised .. | .finished .. => false

/-- The history has the dispatch of a read for connection `c`, under its revision and set. -/
def OnlineRead.Started (job : OnlineRead) (c : ℕ) (log : List PresenceEntry) : Prop :=
  ∃ time mark, .admitted c time mark job.revision job.userIds ∈ log

namespace Presence

variable {L ι : Type} {env : OnlineEnv L} {p p' p'' : Presence L} {c i j : ℕ} {now : Int}
  {req : SubscriptionRequest} {e : PresenceEvent ι} {entries : List PresenceEntry}

/-! ### Marks -/

/-- **What marks at one clock reading do** to subscription `j`. -/
inductive Nudge (p : Presence L) (j : ℕ) (now : Int) (p' : Presence L) : Prop
  | same (hsub : p'.subs j = p.subs j) (hhas : p'.due.Has j ↔ p.due.Has j)
  | remarked (hcancel : (p.subs j).cancel = true) (hhas : ¬ p.due.Has j) (hhas' : ¬ p'.due.Has j)
      (hsub : p'.subs j = { p.subs j with remark := true })
  | queued (hcancel : (p.subs j).cancel = false) (hhas : ¬ p.due.Has j) (hhas' : p'.due.Has j)
      (hseq : p.seq ≤ (p'.subs j).seq) (hseq' : (p'.subs j).seq < p'.seq)
      (hsub : p'.subs j =
        { p.subs j with readyAt := clamp (p.subs j) now, seq := (p'.subs j).seq })
  | advanced (hcancel : (p.subs j).cancel = false) (hhas : p.due.Has j) (hhas' : p'.due.Has j)
      (hlt : clamp (p.subs j) now < (p.subs j).readyAt)
      (hsub : p'.subs j = { p.subs j with readyAt := clamp (p.subs j) now })

/-- Only the mark and the place in the queue change. -/
theorem Nudge.core (h : Nudge p j now p') : p'.subs j = { p.subs j with
    readyAt := (p'.subs j).readyAt, seq := (p'.subs j).seq, remark := (p'.subs j).remark } := by
  cases h with
  | same hsub | remarked _ _ _ hsub | advanced _ _ _ _ hsub | queued _ _ _ _ _ hsub => rw [hsub]

/-- A second mark at the same reading adds nothing. -/
theorem Nudge.trans (h : Nudge p j now p') (h' : Nudge p' j now p'') (hseq : p.seq ≤ p'.seq)
    (hseq' : p'.seq ≤ p''.seq) : Nudge p j now p'' := by
  cases h with
  | same hsub hhas =>
    cases h' with
    | same hsub' hhas' => exact .same (hsub'.trans hsub) (hhas'.trans hhas)
    | remarked hcancel hhas₁ hhas₂ hsub' =>
      rw [hsub] at hcancel hsub'
      exact .remarked hcancel (hhas.not.1 hhas₁) hhas₂ hsub'
    | queued hcancel hhas₁ hhas₂ hlo hhi hsub' =>
      rw [hsub] at hcancel hsub'
      exact .queued hcancel (hhas.not.1 hhas₁) hhas₂ (hseq.trans hlo) hhi hsub'
    | advanced hcancel hhas₁ hhas₂ hlt hsub' =>
      rw [hsub] at hcancel hsub' hlt
      exact .advanced hcancel (hhas.1 hhas₁) hhas₂ hlt hsub'
  | remarked hcancel hhas hhas' hsub =>
    cases h' with
    | same hsub' hhas₁ => exact .remarked hcancel hhas (hhas₁.not.2 hhas') (hsub'.trans hsub)
    | remarked _ _ hhas₂ hsub' =>
      rw [hsub] at hsub'
      exact .remarked hcancel hhas hhas₂ hsub'
    | queued hcancel' =>
      rw [hsub] at hcancel'
      cases hcancel.symm.trans hcancel'
    | advanced _ hhas₁ => exact absurd hhas₁ hhas'
  | queued hcancel hhas hhas' hlo hhi hsub =>
    cases h' with
    | same hsub' hhas₁ =>
      refine .queued hcancel hhas (hhas₁.2 hhas') (hsub' ▸ hlo) (hsub' ▸ hhi.trans_le hseq') ?_
      rw [hsub']
      exact hsub
    | remarked _ hhas₁ | queued _ hhas₁ => exact absurd hhas' hhas₁
    | advanced _ _ _ hlt =>
      rw [hsub] at hlt
      exact absurd hlt (lt_irrefl _)
  | advanced hcancel hhas hhas' hlt hsub =>
    cases h' with
    | same hsub' hhas₁ => exact .advanced hcancel hhas (hhas₁.2 hhas') hlt (hsub'.trans hsub)
    | remarked _ hhas₁ | queued _ hhas₁ => exact absurd hhas' hhas₁
    | advanced _ _ _ hlt' =>
      rw [hsub] at hlt'
      exact absurd hlt' (lt_irrefl _)

theorem seq_le_mark (hheap : p.due.Ok (key p.subs)) (i : ℕ) (now : Int) :
    p.seq ≤ (p.mark (some i) now).seq := by
  rcases hcancel : (p.subs i).cancel with - | -
  · rw [mark_of_idle hcancel, (requeued hheap i now).seq]
    split <;> omega
  · rw [mark_of_cancel hcancel]
    exact le_rfl

/-- A mark leaves the other subscriptions as they are. -/
theorem mark_of_ne (hheap : p.due.Ok (key p.subs)) {i j : ℕ} (hji : j ≠ i) (now : Int) :
    (p.mark (some i) now).subs j = p.subs j ∧ ((p.mark (some i) now).due.Has j ↔ p.due.Has j) := by
  rcases hcancel : (p.subs i).cancel with - | -
  · have hreq := requeued hheap i now
    rw [mark_of_idle hcancel]
    exact ⟨hreq.other j hji, (hreq.has j).trans (or_iff_left hji)⟩
  · rw [mark_of_cancel hcancel]
    exact ⟨write_subs_of_ne hji, Iff.rfl⟩

theorem Scheduled.nudge_mark (h : Scheduled p) (i : ℕ) (now : Int) (j : ℕ) :
    Nudge p j now (p.mark (some i) now) := by
  by_cases hji : j = i
  swap
  · obtain ⟨hsub, hhas⟩ := mark_of_ne h.heap hji now
    exact .same hsub hhas
  subst hji
  rcases hcancel : (p.subs j).cancel with - | -
  · rw [mark_of_idle hcancel]
    have hreq := requeued h.heap j now
    have hself := hreq.self
    by_cases hhas : p.due.Has j
    · rw [hreq.readyAt, hreq.mark, if_pos hhas, if_pos hhas] at hself
      have hhas' := (hreq.has j).2 (.inl hhas)
      rcases lt_or_ge (clamp (p.subs j) now) (p.subs j).readyAt with hlt | hge
      · rw [min_eq_right hlt.le] at hself
        exact .advanced hcancel hhas hhas' hlt hself
      · rw [min_eq_left hge] at hself
        exact .same hself ⟨fun _ ↦ hhas, fun _ ↦ hhas'⟩
    · have hmark := hreq.mark
      have hseq := hreq.seq
      rw [if_neg hhas] at hmark hseq
      refine .queued hcancel hhas ((hreq.has j).2 (.inr rfl)) hmark.ge (by omega) ?_
      rw [hreq.readyAt, if_neg hhas] at hself
      exact hself
  · rw [mark_of_cancel hcancel]
    have hhas : ¬ p.due.Has j := fun hhas ↦ by
      rw [h.apart j hhas] at hcancel
      cases hcancel
    exact .remarked hcancel hhas hhas (write_subs_self ..)

theorem Sound.markAll_frame (h : Sound p) (clients : List ℕ) (now : Int) :
    clients.foldl (fun p c ↦ p.mark (p.active.lookup c) now) p = { p with
      subs := (clients.foldl (fun p c ↦ p.mark (p.active.lookup c) now) p).subs,
      due := (clients.foldl (fun p c ↦ p.mark (p.active.lookup c) now) p).due,
      seq := (clients.foldl (fun p c ↦ p.mark (p.active.lookup c) now) p).seq,
      wake := (clients.foldl (fun p c ↦ p.mark (p.active.lookup c) now) p).wake } := by
  induction clients generalizing p with
  | nil => rfl
  | cons c clients ih =>
    simp only [foldl_cons]
    rcases hi : p.active.lookup c with - | i
    · exact ih h
    · rw [ih (h.mark hi now), mark_frame h.heap]

theorem Sound.nudge_markAll (h : Sound p) (clients : List ℕ) (now : Int) (j : ℕ) :
    Nudge p j now (clients.foldl (fun p c ↦ p.mark (p.active.lookup c) now) p) ∧
      p.seq ≤ (clients.foldl (fun p c ↦ p.mark (p.active.lookup c) now) p).seq := by
  induction clients generalizing p with
  | nil => exact ⟨.same rfl Iff.rfl, le_rfl⟩
  | cons c clients ih =>
    simp only [foldl_cons]
    rcases hi : p.active.lookup c with - | i
    · exact ih h
    · obtain ⟨hnudge, hle⟩ := ih (h.mark hi now)
      have hle₀ := seq_le_mark h.heap i now
      exact ⟨(h.toScheduled.nudge_mark i now j).trans hnudge hle₀ hle, hle₀.trans hle⟩

theorem Sound.nudge_markOnlineChanged (h : Sound p) (visits : List (List ℕ)) (now : Int) (j : ℕ) :
    Nudge p j now (p.markOnlineChanged visits now) ∧
      p.markOnlineChanged visits now = { p with
        subs := (p.markOnlineChanged visits now).subs, due := (p.markOnlineChanged visits now).due,
        seq := (p.markOnlineChanged visits now).seq,
        wake := (p.markOnlineChanged visits now).wake } := by
  rw [Presence.markOnlineChanged]
  split
  · exact ⟨.same rfl Iff.rfl, rfl⟩
  · exact ⟨(h.nudge_markAll _ now j).1, h.markAll_frame _ now⟩

/-! ### Revisions -/

/-- **What a new revision does** to the client's subscription `i`, in terms of the object `s` that
it had or is given. -/
structure Revised (p : Presence L) (s : Subscription) (req : SubscriptionRequest) (now : Int) (i : ℕ)
    (p' : Presence L) : Prop where
  core : p'.subs i = { s with
    revision := req.revision, userIds := sortCompact req.userIds, lastSuccess := 0,
    remark := (p'.subs i).remark, readyAt := (p'.subs i).readyAt, seq := (p'.subs i).seq }
  empty : sortCompact req.userIds = [] → (p'.subs i).remark = false ∧ ¬ p'.due.Has i
  reading : sortCompact req.userIds ≠ [] → s.cancel = true →
    (p'.subs i).remark = true ∧ ¬ p'.due.Has i
  queued : sortCompact req.userIds ≠ [] → s.cancel = false → (p'.subs i).remark = false ∧
    p'.due.Has i ∧ (p'.subs i).readyAt = clamp s now ∧
    p.seq ≤ (p'.subs i).seq ∧ (p'.subs i).seq < p'.seq

/-- A new revision that is queued is queued anew. -/
theorem Revised.of_has {s : Subscription} (hr : Revised p s req now i p') (hhas : p'.due.Has i) :
    (p'.subs i).readyAt = clamp s now ∧ p.seq ≤ (p'.subs i).seq ∧
      (p'.subs i).seq < p'.seq := by
  by_cases hnil : sortCompact req.userIds = []
  · exact absurd hhas (hr.empty hnil).2
  rcases hcancel : s.cancel with - | -
  · exact (hr.queued hnil hcancel).2.2
  · exact absurd hhas (hr.reading hnil hcancel).2

theorem Accepted.revised (h : Sound p) (ha : Accepted p c req now i p') :
    Revised p ((p.prepared c).subs i) req now i p' := by
  obtain ⟨q, hr, rfl⟩ := ha.replaced h
  have hq : ¬ q.due.Has i := fun hhas ↦ ((hr.has i).1 hhas).2 rfl
  have hseq : q.seq = p.seq := by rw [hr.frame, prepared_frame c]
  have hself := hr.self
  split
  next hnil =>
    refine ⟨?_, fun _ ↦ ⟨?_, hq⟩, fun hne ↦ absurd hnil hne, fun hne ↦ absurd hnil hne⟩
    · rw [hself]
    · rw [hself]
  next hne =>
    have hcore := mark_core hr.heap i now i
    rcases hcancel : ((p.prepared c).subs i).cancel with - | -
    · have hcancel' : (q.subs i).cancel = false := by rw [hself]; exact hcancel
      rw [mark_of_idle hcancel'] at hcore ⊢
      have hreq := requeued hr.heap i now
      have hready := hreq.readyAt
      have hmark := hreq.mark
      have hseq' := hreq.seq
      rw [if_neg hq] at hready hmark hseq'
      have hremark : ((q.requeue i now).subs i).remark = false := by rw [hreq.core, hself]
      refine ⟨?_, fun hnil ↦ absurd hnil hne, fun _ ht ↦ (nomatch hcancel.symm.trans ht),
        fun _ _ ↦ ⟨hremark, (hreq.has i).2 (.inr rfl), ?_, ?_⟩⟩
      · rw [hcore, hself]
      · rw [hready, hself]
        rfl
      · omega
    · have hcancel' : (q.subs i).cancel = true := by rw [hself]; exact hcancel
      rw [mark_of_cancel hcancel']
      refine ⟨?_, fun hnil ↦ absurd hnil hne, fun _ _ ↦ ⟨?_, hq⟩,
        fun _ hf ↦ (nomatch hcancel.symm.trans hf)⟩
      · rw [write_subs_self, hself]
      · rw [write_subs_self]

/-- The other clients' subscriptions stay as they are. -/
theorem Accepted.other (h : Sound p) (ha : Accepted p c req now i p') (hj : j < p.fresh)
    (hji : j ≠ i) :
    p'.subs j = p.subs j ∧ (p'.due.Has j ↔ p.due.Has j) := by
  obtain ⟨q, hr, rfl⟩ := ha.replaced h
  have hq : q.subs j = p.subs j ∧ (q.due.Has j ↔ p.due.Has j) := by
    rw [hr.other j hji, hr.has, prepared_subs hj, show (p.prepared c).due = p.due by
      rw [prepared_frame c]]
    exact ⟨rfl, and_iff_left hji⟩
  split
  · exact hq
  · rcases hcancel : (q.subs i).cancel with - | -
    · rw [mark_of_idle hcancel]
      have hreq := requeued hr.heap i now
      rw [hreq.other j hji, hreq.has, or_iff_left hji]
      exact hq
    · rw [mark_of_cancel hcancel, write_subs_of_ne hji]
      exact hq

theorem Accepted.frame (h : Sound p) (ha : Accepted p c req now i p') :
    p'.fresh = (p.prepared c).fresh ∧ p'.onlineSub = (p.prepared c).onlineSub ∧ p'.done = p.done ∧
      p'.closing = p.closing ∧ p'.stopped = p.stopped ∧ p.seq ≤ p'.seq := by
  obtain ⟨q, hr, rfl⟩ := ha.replaced h
  have hq : q.fresh = (p.prepared c).fresh ∧ q.onlineSub = (p.prepared c).onlineSub ∧
      q.done = p.done ∧ q.closing = p.closing ∧ q.stopped = p.stopped ∧ p.seq ≤ q.seq := by
    rw [hr.frame, prepared_frame c]
    exact ⟨rfl, rfl, rfl, rfl, rfl, le_rfl⟩
  split
  · exact hq
  · have hseq := hq.2.2.2.2.2.trans (seq_le_mark hr.heap i now)
    rw [mark_frame hr.heap]
    exact ⟨hq.1, hq.2.1, hq.2.2.1, hq.2.2.2.1, hq.2.2.2.2.1, hseq⟩

/-! ### Effects -/

/-- **What became of subscription `j`** in a step with these entries. -/
inductive Effect (p : Presence L) (j : ℕ) (p' : Presence L) :
    PresenceEvent ι → List PresenceEntry → Prop
  | same {e : PresenceEvent ι} {entries : List PresenceEntry} (hj : j < p.fresh)
      (hsub : p'.subs j = p.subs j) (hhas : p'.due.Has j ↔ p.due.Has j)
      (hentries : ∀ x ∈ entries, x.client ≠ (p.subs j).client) : Effect p j p' e entries
  | nudged {userIds : List String} {visits : List (List ℕ)} {now : Int} (hj : j < p.fresh)
      (hnudge : Nudge p j now p') : Effect p j p' (.changed userIds visits now) []
  | revised {c : ℕ} {req : SubscriptionRequest} {now : Int} (ha : Accepted p c req now j p')
      (hr : Revised p ((p.prepared c).subs j) req now j p') :
      Effect p j p' (.subscribe c req now) [.revised c now]
  | admitted {now : Int} {frames : L} (hj : j < p.fresh) (hlen : 0 < p.due.len)
      (hhead : p.due.slot 0 = j) (hready : (p.subs j).readyAt ≤ now) (ha : Admitted p now frames p') :
      Effect p j p' (.turn now) [.admitted (p.subs j).client now (p.subs j).seq (p.subs j).revision
        (p.subs j).userIds]
  | finished {k : ℕ} {job : OnlineRead} {result : Option (List ι)} {now : Int} (hj : j < p.fresh)
      (hk : p.running[k]? = some job) (hjob : job.sub = j)
      (hf : Finished p (p.running.eraseIdx k) j now p') :
      Effect p j p' (.finish k result now) [.finished (p.subs j).client now]
  | dropped {e : PresenceEvent ι} (hj : j < p.fresh)
      (hsub : p'.subs j = { p.subs j with remark := false }) (hhas : ¬ p'.due.Has j)
      (hdead : p'.done (p.subs j).client = true ∨ p'.stopped = true) : Effect p j p' e []

/-- One client has one object. -/
theorem Accepted.client_ne (h : Sound p) (ha : Accepted p c req now i p') (hj : j < p'.fresh)
    (hji : j ≠ i) : j < p.fresh ∧ (p.subs j).client ≠ c := by
  have hp := h.prepared ha.done ha.stopped
  obtain ⟨hi, hclient⟩ := hp.current c i ha.sub
  rw [(ha.frame h).1] at hj
  have hlt : j < p.fresh := by
    rcases hc : p.onlineSub c with - | i'
    · have hsub := ha.sub
      rw [prepared_of_none hc] at hj hsub
      obtain rfl : p.fresh = i := by simpa using hsub
      exact lt_of_le_of_ne (Nat.le_of_lt_succ hj) hji
    · rwa [prepared_of_some hc] at hj
  refine ⟨hlt, fun heq ↦ hji (hp.owner j hj i hi ?_)⟩
  rw [prepared_subs hlt, heq, hclient]

/-- What a removal leaves of subscription `j`. -/
def Left (p : Presence L) (j : ℕ) (p' : Presence L) : Prop :=
  (p'.subs j = p.subs j ∧ (p'.due.Has j ↔ p.due.Has j)) ∨
    p'.subs j = { p.subs j with remark := false } ∧ ¬ p'.due.Has j

theorem Removed.left (hr : Removed p c i p') (f : ℕ → Option ℕ) (j : ℕ) :
    Left p j { p' with onlineSub := f } := by
  by_cases hji : j = i
  · subst hji
    exact .inr ⟨by rw [hr.subs, update_self], fun hhas ↦ ((hr.has j).1 hhas).2 rfl⟩
  · exact .inl ⟨by rw [hr.subs, update_of_ne hji], (hr.has j).trans (and_iff_left hji)⟩

theorem Left.trans (h : Left p j p') (h' : Left p' j p'') : Left p j p'' := by
  rcases h with ⟨hsub, hhas⟩ | ⟨hsub, hhas⟩ <;> rcases h' with ⟨hsub', hhas'⟩ | ⟨hsub', hhas'⟩
  · exact .inl ⟨hsub'.trans hsub, hhas'.trans hhas⟩
  · exact .inr ⟨hsub' ▸ hsub ▸ rfl, hhas'⟩
  · exact .inr ⟨hsub'.trans hsub, hhas'.not.2 hhas⟩
  · exact .inr ⟨by rw [hsub', hsub], hhas'⟩

theorem Scheduled.left_dropAll (h : Scheduled p) (hs : p.stopped = true) (order : List ℕ) (j : ℕ) :
    Left p j (order.foldl Presence.drop p) ∧ (order.foldl Presence.drop p).fresh = p.fresh := by
  induction order generalizing p with
  | nil => exact ⟨.inl ⟨rfl, Iff.rfl⟩, rfl⟩
  | cons c order ih =>
    obtain ⟨hd, hs', -⟩ := h.drop hs c
    obtain ⟨hleft, hfresh⟩ := ih hd hs'
    have hone : Left p j (p.drop c) ∧ (p.drop c).fresh = p.fresh := by
      rw [Presence.drop]
      split
      · exact ⟨.inl ⟨rfl, Iff.rfl⟩, rfl⟩
      next i hi =>
        have hr := removed h.toRegistered h.heap ((h.active c i).1 hi).1
        exact ⟨hr.left _ j, by rw [hr.frame]⟩
    exact ⟨hone.1.trans hleft, hfresh.trans hone.2⟩

theorem Removed.effect (h : Scheduled p) (hi : p.onlineSub c = some i) (hr : Removed p c i p')
    (hdead : p.done c = true ∨ p.stopped = true) (hj : j < p.fresh) (e : PresenceEvent ι) :
    Effect p j { p' with onlineSub := update p.onlineSub c none } e [] := by
  by_cases hji : j = i
  · subst hji
    refine .dropped hj ?_ (fun hhas ↦ ((hr.has j).1 hhas).2 rfl) ?_
    · rw [hr.subs, update_self]
    · rw [(h.current c j hi).2, hr.frame]
      exact hdead
  · refine .same hj ?_ ((hr.has j).trans (and_iff_left hji)) nofun
    rw [hr.subs, update_of_ne hji]

/-- **Every step has an effect of this kind** on every object it leaves. -/
theorem Step.effect (h : Sound p) (hstep : Step p e entries p') (hj : j < p'.fresh) :
    Effect p j p' e entries := by
  cases hstep with
  | refused => exact .same hj rfl Iff.rfl nofun
  | @accepted c i req now _ ha =>
    by_cases hji : j = i
    · subst hji
      exact .revised ha (ha.revised h)
    · obtain ⟨hlt, hclient⟩ := ha.client_ne h hj hji
      obtain ⟨hsub, hhas⟩ := ha.other h hlt hji
      refine .same hlt hsub hhas fun x hx ↦ ?_
      rw [mem_singleton.1 hx]
      exact Ne.symm hclient
  | changed hvisits =>
    rw [(h.nudge_markOnlineChanged _ _ j).2] at hj
    exact .nudged hj (h.nudge_markOnlineChanged _ _ j).1
  | idle frames => exact .same hj rfl Iff.rfl nofun
  | admitted hlen hready hreads ha =>
    rw [show p'.fresh = p.fresh by rw [ha.frame]] at hj
    by_cases hhead : p.due.slot 0 = j
    · subst hhead
      exact .admitted hj hlen rfl hready ha
    · refine .same hj (ha.other j (Ne.symm hhead)) ((ha.has j).trans (and_iff_left (Ne.symm hhead)))
        fun x hx ↦ ?_
      obtain ⟨c, hc⟩ := h.queued _ (h.heap.has_head hlen)
      rw [mem_singleton.1 hx]
      exact fun heq ↦ hhead (h.owner _ (h.lt_fresh hc) j hj heq)
  | take hjobs => exact .same hj rfl Iff.rfl nofun
  | @finished k job result now hk =>
    have hf : Finished p (p.running.eraseIdx k) job.sub now
      (finishOnlineRead { p with running := p.running.eraseIdx k } job result now).1 :=
        h.toScheduled.finished hk
    generalize (finishOnlineRead _ job result now).1 = q at hf hj
    rw [show q.fresh = p.fresh by rw [hf.frame]] at hj
    by_cases hjob : job.sub = j
    · subst hjob
      exact .finished hj hk rfl hf
    · refine .same hj (hf.other j (Ne.symm hjob)) ?_ fun x hx ↦ ?_
      · rw [hf.has, or_iff_left fun heq ↦ hjob heq.1.symm]
      · have hmem : job.sub ∈ p.inFlight :=
          mem_map_of_mem (mem_append_right _ (mem_of_getElem? hk))
        rw [mem_singleton.1 hx]
        exact fun heq ↦ hjob (h.owner _ (h.alloc _ hmem) j hj heq)
  | cancelActive c => exact .same hj rfl Iff.rfl nofun
  | @unsubscribe c hdone =>
    rcases hi : p.onlineSub c with - | i
    · rw [removeOnlineSubscriptions, hi] at hj ⊢
      exact .same hj rfl Iff.rfl nofun
    · have hr := removed h.toRegistered h.heap hi
      have hfresh : (p.remove i).fresh = p.fresh := by rw [hr.frame]
      rw [removeOnlineSubscriptions, hi] at hj ⊢
      exact hr.effect h.toScheduled hi (.inl hdone) (lt_of_lt_of_eq hj hfresh) _
  | closeNode => exact .same hj rfl Iff.rfl nofun
  | @stop order horder =>
    have h₀ : Scheduled { p with stopped := true } := h.stopping
    obtain ⟨hleft, hfresh⟩ := h₀.left_dropAll rfl order j
    obtain ⟨-, hs, -⟩ := h₀.dropAll rfl order
    rw [Presence.stop, hfresh] at hj
    rcases hleft with ⟨hsub, hhas⟩ | ⟨hsub, hhas⟩
    · exact .same hj hsub hhas nofun
    · exact .dropped hj hsub hhas (.inr hs)

/-! ### What no step takes back -/

/-- **What grows in every step.** -/
structure Grows (p p' : Presence L) : Prop where
  done : ∀ c, p.done c = true → p'.done c = true
  closing : p.closing = true → p'.closing = true
  stopped : p.stopped = true → p'.stopped = true
  fresh : p.fresh ≤ p'.fresh
  seq : p.seq ≤ p'.seq
  /-- a client on the way out gets no new subscription -/
  gone : ∀ c, p.onlineSub c = none → p.done c = true → p'.onlineSub c = none

theorem Grows.of_frame (hdone : p'.done = p.done) (hclosing : p'.closing = p.closing)
    (hstopped : p'.stopped = p.stopped) (hfresh : p'.fresh = p.fresh) (hseq : p.seq ≤ p'.seq)
    (honline : p'.onlineSub = p.onlineSub) : Grows p p' :=
  ⟨fun _ ↦ hdone ▸ id, hclosing ▸ id, hstopped ▸ id, hfresh.ge, hseq, fun _ hc _ ↦ honline ▸ hc⟩

theorem Grows.trans (h : Grows p p') (h' : Grows p' p'') : Grows p p'' where
  done c hc := h'.done c (h.done c hc)
  closing hc := h'.closing (h.closing hc)
  stopped hs := h'.stopped (h.stopped hs)
  fresh := h.fresh.trans h'.fresh
  seq := h.seq.trans h'.seq
  gone c hc hd := h'.gone c (h.gone c hc hd) (h.done c hd)

theorem Removed.grows (hr : Removed p c i p') :
    Grows p { p' with onlineSub := update p.onlineSub c none } := by
  have hdone : p'.done = p.done := by rw [hr.frame]
  have hclosing : p'.closing = p.closing := by rw [hr.frame]
  have hstopped : p'.stopped = p.stopped := by rw [hr.frame]
  have hfresh : p'.fresh = p.fresh := by rw [hr.frame]
  have hseq : p'.seq = p.seq := by rw [hr.frame]
  refine ⟨fun _ ↦ hdone ▸ id, hclosing ▸ id, hstopped ▸ id, hfresh.ge, hseq.ge, fun c' hc' _ ↦ ?_⟩
  by_cases heq : c' = c
  · exact heq ▸ update_self ..
  · exact (update_of_ne heq ..).trans hc'

theorem Scheduled.grows_dropAll (h : Scheduled p) (hs : p.stopped = true) (order : List ℕ) :
    Grows p (order.foldl Presence.drop p) := by
  induction order generalizing p with
  | nil => exact .of_frame rfl rfl rfl rfl le_rfl rfl
  | cons c order ih =>
    obtain ⟨hd, hs', -⟩ := h.drop hs c
    refine Grows.trans ?_ (ih hd hs')
    rw [Presence.drop]
    split
    · exact .of_frame rfl rfl rfl rfl le_rfl rfl
    next i hi => exact (removed h.toRegistered h.heap ((h.active c i).1 hi).1).grows

theorem Accepted.grows (h : Sound p) (ha : Accepted p c req now i p') :
    Grows p p' := by
  obtain ⟨hfresh, honline, hdone, hclosing, hstopped, hseq⟩ := ha.frame h
  refine ⟨fun _ ↦ hdone ▸ id, hclosing ▸ id, hstopped ▸ id, ?_, hseq, fun c' hc' hd' ↦ ?_⟩
  · rw [hfresh, prepared]
    split
    · exact le_rfl
    · exact Nat.le_succ _
  · have hne : c' ≠ c := fun heq ↦ by
      rw [heq, ha.done] at hd'
      cases hd'
    rw [honline, prepared]
    split
    · exact hc'
    · exact (update_of_ne hne ..).trans hc'

theorem Finished.grows {running : List OnlineRead} (hf : Finished p running i now p') : Grows p p' := by
  have hseq : p.seq ≤ p'.seq := by
    rcases hadopts : p.adopts i with - | -
    · exact (hf.skip hadopts).2.1.ge
    · rw [(hf.adopt hadopts).2.1]
      exact Nat.le_succ _
  exact .of_frame (by rw [hf.frame]) (by rw [hf.frame]) (by rw [hf.frame]) (by rw [hf.frame]) hseq
    (by rw [hf.frame])

theorem Step.grows (h : Sound p) (hstep : Step p e entries p') : Grows p p' := by
  cases hstep with
  | refused => exact .of_frame rfl rfl rfl rfl le_rfl rfl
  | accepted ha => exact ha.grows h
  | @changed userIds visits now hvisits =>
    have hframe := (h.nudge_markOnlineChanged visits now 0).2
    refine .of_frame (by rw [hframe]) (by rw [hframe]) (by rw [hframe]) (by rw [hframe]) ?_
      (by rw [hframe])
    rw [markOnlineChanged]
    split
    · exact le_rfl
    · exact (h.nudge_markAll _ now 0).2
  | idle frames => exact .of_frame rfl rfl rfl rfl le_rfl rfl
  | admitted hlen hready hreads ha =>
    refine .of_frame ?_ ?_ ?_ ?_ (le_of_eq ?_) ?_
    all_goals rw [ha.frame]
  | take hjobs => exact .of_frame rfl rfl rfl rfl le_rfl rfl
  | @finished k job result now hk =>
    have hf : Finished p (p.running.eraseIdx k) job.sub now
      (finishOnlineRead { p with running := p.running.eraseIdx k } job result now).1 :=
        h.toScheduled.finished hk
    exact hf.grows
  | cancelActive c =>
    refine ⟨fun c' hc' ↦ ?_, id, id, le_rfl, le_rfl, fun _ hc' _ ↦ hc'⟩
    by_cases heq : c' = c
    · exact heq ▸ update_self ..
    · exact (update_of_ne heq ..).trans hc'
  | @unsubscribe c hdone =>
    rw [removeOnlineSubscriptions]
    split
    · exact .of_frame rfl rfl rfl rfl le_rfl rfl
    next i hi => exact (removed h.toRegistered h.heap hi).grows
  | closeNode => exact ⟨fun _ ↦ id, fun _ ↦ rfl, id, le_rfl, le_rfl, fun _ hc _ ↦ hc⟩
  | @stop order horder =>
    refine Grows.trans ?_ (h.toScheduled.stopping.grows_dropAll rfl order)
    exact ⟨fun _ ↦ id, id, fun _ ↦ rfl, le_rfl, le_rfl, fun _ hc _ ↦ hc⟩

/-- The client's `activeCtx` is live, and the node neither closes nor has stopped. -/
def Live (p : Presence L) (c : ℕ) : Prop :=
  p.done c = false ∧ p.closing = false ∧ p.stopped = false

/-- Nobody comes back to life. -/
theorem Grows.live (h : Grows p p') (hlive : p'.Live c) : p.Live c := by
  obtain ⟨hd, hc, hs⟩ := hlive
  refine ⟨Bool.eq_false_iff.2 fun ht ↦ ?_, Bool.eq_false_iff.2 fun ht ↦ ?_,
    Bool.eq_false_iff.2 fun ht ↦ ?_⟩
  · cases hd.symm.trans (h.done c ht)
  · cases hc.symm.trans (h.closing ht)
  · cases hs.symm.trans (h.stopped ht)

/-! ### Revisions and reads -/

/-- **Revisions only grow**, and a revision keeps its set. -/
theorem Step.revision (h : Sound p) (hstep : Step p e entries p') (hj : j < p.fresh) :
    (p'.subs j).client = (p.subs j).client ∧
      ((p'.subs j).revision = (p.subs j).revision ∧ (p'.subs j).userIds = (p.subs j).userIds ∨
        (p.subs j).revision < (p'.subs j).revision) := by
  cases hstep.effect h (hj.trans_le (hstep.grows h).fresh) with
  | same _ hsub => exact hsub ▸ ⟨rfl, .inl ⟨rfl, rfl⟩⟩
  | nudged _ hnudge =>
    rw [hnudge.core]
    exact ⟨rfl, .inl ⟨rfl, rfl⟩⟩
  | revised ha hr =>
    have hlt := ha.revision
    rw [hr.core, prepared_subs hj]
    rw [prepared_subs hj] at hlt
    exact ⟨rfl, .inr hlt⟩
  | admitted _ _ hhead _ ha =>
    subst hhead
    rw [ha.self]
    exact ⟨rfl, .inl ⟨rfl, rfl⟩⟩
  | finished _ _ _ hf =>
    rw [hf.core]
    exact ⟨rfl, .inl ⟨rfl, rfl⟩⟩
  | dropped _ hsub =>
    rw [hsub]
    exact ⟨rfl, .inl ⟨rfl, rfl⟩⟩

theorem Accepted.jobs (h : Sound p) (ha : Accepted p c req now i p') :
    p'.jobs = p.jobs ∧ p'.running = p.running := by
  obtain ⟨q, hr, rfl⟩ := ha.replaced h
  have hq : q.jobs = p.jobs ∧ q.running = p.running := by
    rw [hr.frame, prepared_frame c]
    exact ⟨rfl, rfl⟩
  split
  · exact hq
  · rw [mark_frame hr.heap]
    exact hq

theorem remove_jobs (p : Presence L) (i : ℕ) : (p.remove i).jobs = p.jobs ∧
    (p.remove i).running = p.running ∧ (p.remove i).seq = p.seq := by
  simp only [remove, unregister, unmark, write]
  split <;> exact ⟨rfl, rfl, rfl⟩

theorem dropAll_jobs (p : Presence L) (order : List ℕ) :
    (order.foldl drop p).jobs = p.jobs ∧
      (order.foldl drop p).running = p.running ∧
      (order.foldl drop p).seq = p.seq := by
  induction order generalizing p with
  | nil => exact ⟨rfl, rfl, rfl⟩
  | cons c order ih =>
    obtain ⟨hjobs, hrunning, hseq⟩ := ih (p.drop c)
    have hdrop : (p.drop c).jobs = p.jobs ∧ (p.drop c).running = p.running ∧
        (p.drop c).seq = p.seq := by
      rw [drop]
      split
      · exact ⟨rfl, rfl, rfl⟩
      · exact remove_jobs p _
    exact ⟨hjobs.trans hdrop.1, hrunning.trans hdrop.2.1, hseq.trans hdrop.2.2⟩

/-- **A read is new or old**: a new one copies the revision and the set of a queued subscription. -/
theorem Step.jobs {job : OnlineRead} (h : Sound p) (hstep : Step p e entries p')
    (hmem : job ∈ p'.jobs ++ p'.running) :
    job ∈ p.jobs ++ p.running ∨ p.due.Has job.sub ∧ job.revision = (p.subs job.sub).revision ∧
      job.userIds = (p.subs job.sub).userIds ∧ job.Started (p.subs job.sub).client entries := by
  cases hstep with
  | refused => exact .inl hmem
  | accepted ha =>
    rw [(ha.jobs h).1, (ha.jobs h).2] at hmem
    exact .inl hmem
  | @changed userIds visits now hvisits =>
    rw [(h.nudge_markOnlineChanged visits now 0).2] at hmem
    exact .inl hmem
  | idle frames => exact .inl hmem
  | admitted hlen hready hreads ha =>
    rw [ha.jobs, show p'.running = p.running by rw [ha.frame], append_assoc] at hmem
    rcases mem_append.1 hmem with hmem | hmem
    · exact .inl (mem_append_left _ hmem)
    · rcases mem_cons.1 hmem with rfl | hmem
      · exact .inr ⟨h.heap.has_head hlen, rfl, rfl, _, _, mem_singleton_self _⟩
      · exact .inl (mem_append_right _ hmem)
  | @take job' jobs hjobs =>
    refine .inl ?_
    rw [hjobs]
    simp only [mem_append, mem_cons, not_mem_nil, or_false] at hmem ⊢
    tauto
  | @finished k job' result now hk =>
    have hf : Finished p (p.running.eraseIdx k) job'.sub now
      (finishOnlineRead { p with running := p.running.eraseIdx k } job' result now).1 :=
        h.toScheduled.finished hk
    rw [hf.frame] at hmem
    refine .inl (mem_append.2 ((mem_append.1 hmem).imp_right fun hmem ↦ ?_))
    exact mem_of_mem_eraseIdx hmem
  | cancelActive c => exact .inl hmem
  | @unsubscribe c hdone =>
    rw [removeOnlineSubscriptions] at hmem
    split at hmem
    · exact .inl hmem
    next i hi =>
      obtain ⟨hjobs, hrunning, -⟩ := remove_jobs p i
      simp only [hjobs, hrunning] at hmem
      exact .inl hmem
  | closeNode => exact .inl hmem
  | @stop order horder =>
    obtain ⟨hjobs, hrunning, -⟩ := dropAll_jobs { p with stopped := true } order
    rw [Presence.stop, hjobs, hrunning] at hmem
    exact .inl hmem

end Presence

end Nexo.Gateway
