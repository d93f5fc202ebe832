import Nexo.Gateway.PresenceEffect
import Nexo.Guarantees.Presence

/-!
# The presence scheduler is fair

Reads of one connection are a second apart because a queued subscription is never ready before its
`nextAttempt` (`Paced`). A waiting connection is overtaken by each other connection once at most:
the dispatcher takes the least element, and a connection that was admitted at or after the moment at
which the waiting one became ready is not ready again before a second has passed (`Overtaken`). For
the last part the clock matters: a mark is first queued at some reading and, when it moves, it moves
to a later reading, so it is never ready before it was made (`Stamped`).
-/

namespace Nexo.Gateway

open Machine List Option

/-- The time of an admission of connection `c`. -/
def PresenceEntry.admittedAt (c : ℕ) : PresenceEntry → Option Int
  | .admitted c' time _ _ _ => if c' = c then some time else none
  | .revised .. | .finished .. => none

namespace Presence

variable {L ι : Type} {env : OnlineEnv L} {p p' : Presence L} {c i j x : ℕ} {now : Int}
  {e : PresenceEvent ι} {entries log seg : List PresenceEntry} {stamps : List Int} {revision : Int}

/-! ### Admissions -/

theorem filterMap_admittedAt (h : ∀ x ∈ entries, x.dispatch = false) (c : ℕ) :
    entries.filterMap (PresenceEntry.admittedAt c) = [] := by
  refine filterMap_eq_nil_iff.2 fun x hx ↦ ?_
  cases x with
  | admitted => cases h _ hx
  | revised | finished => rfl

/-- **A step admits nobody, or the head of the queue.** -/
theorem Step.dispatch_cases (hstep : Step p e entries p') : (∀ x ∈ entries, x.dispatch = false) ∨
    ∃ now frames, e = .turn now ∧ entries = [p.admission now] ∧ 0 < p.due.len ∧
      (p.subs (p.due.slot 0)).readyAt ≤ now ∧ Admitted p now frames p' := by
  cases hstep with
  | admitted hlen hready hreads ha => exact .inr ⟨_, _, rfl, rfl, hlen, hready, ha⟩
  | accepted | finished =>
    refine .inl fun x hx ↦ ?_
    rw [mem_singleton.1 hx]
    rfl
  | _ => exact .inl nofun

/-- **Admissions of a connection are apart.** -/
structure Paced (p : Presence L) (log : List PresenceEntry) : Prop where
  spaced : ∀ c, (log.filterMap (PresenceEntry.admittedAt c)).Pairwise
    fun a b ↦ b + onlineRefreshMinInterval ≤ a
  next : ∀ c, ∀ a ∈ log.filterMap (PresenceEntry.admittedAt c), ∃ i < p.fresh,
    (p.subs i).client = c ∧ a + onlineRefreshMinInterval ≤ (p.subs i).nextAttempt
  ready : ∀ i, p.due.Has i → (p.subs i).nextAttempt ≤ (p.subs i).readyAt

/-- A subscription that a step leaves in the queue is not ready before its `nextAttempt`. -/
theorem Paced.step_ready (hp : Paced p log) (h : Sound p) (hstep : Step p e entries p')
    (hhas : p'.due.Has j) : (p'.subs j).nextAttempt ≤ (p'.subs j).readyAt := by
  obtain ⟨c, hc⟩ := (h.step hstep).queued j hhas
  cases hstep.effect h ((h.step hstep).lt_fresh hc) with
  | same _ hsub hhas' =>
    rw [hsub]
    exact hp.ready j (hhas'.1 hhas)
  | nudged _ hnudge =>
    cases hnudge with
    | same hsub hhas' =>
      rw [hsub]
      exact hp.ready j (hhas'.1 hhas)
    | remarked _ _ hhas' => exact absurd hhas hhas'
    | queued _ _ _ _ _ hsub | advanced _ _ _ _ hsub =>
      rw [hsub]
      exact le_max_right _ _
  | revised ha hr =>
    obtain ⟨hready, -⟩ := hr.of_has hhas
    rw [hready, show (p'.subs j).nextAttempt = _ by rw [hr.core]]
    exact le_max_right _ _
  | admitted _ _ hhead _ ha => exact absurd hhead.symm ((ha.has j).1 hhas).2
  | finished hj hk hjob hf =>
    subst hjob
    obtain ⟨-, -, -, -, hready⟩ := hf.adopt (hf.adopts_of_has h.toScheduled hk hhas)
    rw [hready, show (p'.subs _).nextAttempt = _ by rw [hf.core]]
    exact le_max_right _ _
  | dropped _ _ hhas' => exact absurd hhas hhas'

theorem Paced.nextAttempt_le (hp : Paced p log) (h : Sound p) (hstep : Step p e entries p')
    (hj : j < p.fresh) : (p.subs j).nextAttempt ≤ (p'.subs j).nextAttempt := by
  cases hstep.effect h (hj.trans_le (hstep.grows h).fresh) with
  | same _ hsub => rw [hsub]
  | nudged _ hnudge => rw [hnudge.core]
  | revised ha hr => rw [hr.core, prepared_subs hj]
  | admitted _ hlen hhead hready ha =>
    subst hhead
    have hle := hp.ready _ (h.heap.has_head hlen)
    rw [ha.self]
    have hpos : 0 ≤ onlineRefreshMinInterval := by decide
    dsimp only
    omega
  | finished _ _ _ hf => rw [hf.core]
  | dropped _ hsub => rw [hsub]

/-- An earlier admission of the head's client is a second ago. -/
theorem Paced.head (hp : Paced p log) (h : Sound p) (hlen : 0 < p.due.len) {a : Int}
    (ha : a ∈ log.filterMap (PresenceEntry.admittedAt (p.subs (p.due.slot 0)).client)) :
    a + onlineRefreshMinInterval ≤ (p.subs (p.due.slot 0)).readyAt := by
  have hhas := h.heap.has_head hlen
  obtain ⟨c, hc⟩ := h.queued _ hhas
  obtain ⟨i, hi, hclient, hnext⟩ := hp.next _ a ha
  obtain rfl := h.owner i hi _ (h.lt_fresh hc) hclient
  exact hnext.trans (hp.ready _ hhas)

theorem admittedAt_admission (p : Presence L) (now : Int) (c : ℕ) :
    (p.admission now).admittedAt c =
      if (p.subs (p.due.slot 0)).client = c then some now else none := rfl

theorem Paced.step (hp : Paced p log) (h : Sound p) (hstep : Step p e entries p') :
    Paced p' (entries ++ log) := by
  have hold (c : ℕ) (a : Int) (ha : a ∈ log.filterMap (PresenceEntry.admittedAt c)) :
      ∃ i < p'.fresh, (p'.subs i).client = c ∧
        a + onlineRefreshMinInterval ≤ (p'.subs i).nextAttempt := by
    obtain ⟨i, hi, hclient, hnext⟩ := hp.next c a ha
    exact ⟨i, hi.trans_le (hstep.grows h).fresh, (hstep.revision h hi).1.trans hclient,
      hnext.trans (hp.nextAttempt_le h hstep hi)⟩
  rcases hstep.dispatch_cases with hnone | ⟨now, frames, -, rfl, hlen, hready, ha⟩
  · refine ⟨fun c ↦ ?_, fun c ↦ ?_, fun j ↦ hp.step_ready h hstep⟩
    · rw [filterMap_append, filterMap_admittedAt hnone]
      exact hp.spaced c
    · rw [filterMap_append, filterMap_admittedAt hnone]
      exact hold c
  · refine ⟨fun c ↦ ?_, fun c ↦ ?_, fun j ↦ hp.step_ready h hstep⟩
    all_goals
      rw [singleton_append, filterMap_cons, admittedAt_admission]
      split_ifs with hc
      on_goal 2 => first | exact hp.spaced c | exact hold c
    · subst hc
      exact pairwise_cons.2 ⟨fun b hb ↦ (hp.head h hlen hb).trans hready, hp.spaced _⟩
    · intro a hmem
      rcases mem_cons.1 hmem with rfl | hmem
      · obtain ⟨c', hc'⟩ := h.queued _ (h.heap.has_head hlen)
        refine ⟨p.due.slot 0, (h.lt_fresh hc').trans_le (hstep.grows h).fresh, ?_, ?_⟩
        · rw [ha.self]
          exact hc
        · rw [ha.self]
      · exact hold c a hmem

/-! ### The readings of the marks -/

/-- Steps that take no reading give out no number. -/
theorem Step.seq_eq (hstep : Step p e entries p') (hnow : e.now = none) : p'.seq = p.seq := by
  cases hstep with
  | refused | accepted | changed | idle | admitted | finished => cases hnow
  | take | cancelActive | closeNode => rfl
  | unsubscribe hdone =>
    rw [Presence.removeOnlineSubscriptions]
    split
    · rfl
    next i hi => exact (remove_jobs p i).2.2
  | @stop order horder => exact (dropAll_jobs { p with stopped := true } order).2.2

/-- **Every number that a step gives out is stamped with the step's reading.** -/
theorem stamps_next {s s' : PresenceRun L} (h : Sound s.sched) (hnext : s.next env e = some s') :
    s'.stamps = s.stamps ++ replicate (s'.sched.seq - s.sched.seq) (e.now.getD 0) := by
  obtain ⟨entries, hstep, -⟩ := h.step_cases hnext
  have hsame (hstamps : s'.stamps = s.stamps) (hseq : s'.sched.seq = s.sched.seq) :
      s'.stamps = s.stamps ++ replicate (s'.sched.seq - s.sched.seq) (e.now.getD 0) := by
    rw [hstamps, hseq, Nat.sub_self]
    exact (append_nil _).symm
  cases e with
  | subscribe c req now => exact some.inj hnext ▸ rfl
  | changed userIds visits now =>
    rw [PresenceRun.next] at hnext
    split at hnext
    · exact some.inj hnext ▸ rfl
    · cases hnext
  | turn now =>
    have hturned := h.toScheduled.turn env now
    rw [PresenceRun.next] at hnext
    generalize s.sched.turn env now = t at hturned hnext
    cases hturned with
    | idle | throttled => exact hsame (some.inj hnext ▸ rfl) (some.inj hnext ▸ rfl)
    | admitted => exact some.inj hnext ▸ rfl
  | finish k result now =>
    rw [PresenceRun.next] at hnext
    split at hnext
    · cases hnext
    · exact some.inj hnext ▸ rfl
  | take =>
    refine hsame ?_ (hstep.seq_eq rfl)
    rw [PresenceRun.next] at hnext
    split at hnext
    · cases hnext
    · split at hnext
      · exact some.inj hnext ▸ rfl
      · cases hnext
  | cancelActive | closeNode =>
    exact hsame (some.inj hnext ▸ rfl) (hstep.seq_eq rfl)
  | unsubscribe | stop =>
    refine hsame ?_ (hstep.seq_eq rfl)
    rw [PresenceRun.next] at hnext
    split at hnext
    · exact some.inj hnext ▸ rfl
    · cases hnext

/-- **A mark is never ready before it was made**, and no mark is of the future. -/
structure Stamped (p : Presence L) (stamps : List Int) (clock : Int) : Prop where
  length : stamps.length = p.seq
  first : ∀ i, p.due.Has i → ∃ τ, stamps[(p.subs i).seq]? = some τ ∧ τ ≤ clock ∧
    τ ≤ (p.subs i).readyAt

theorem getElem?_stamp {m n : ℕ} {now : Int} (hlo : stamps.length ≤ m) (hhi : m < n) :
    (stamps ++ replicate (n - stamps.length) now)[m]? = some now := by
  rw [getElem?_append_right hlo, getElem?_replicate, if_pos (by omega)]

theorem Stamped.step {clock : Int} (hs : Stamped p stamps clock) (h : Sound p)
    (hstep : Step p e entries p') (hclock : clock ≤ e.now.getD clock) :
    Stamped p' (stamps ++ replicate (p'.seq - p.seq) (e.now.getD 0)) (e.now.getD clock) := by
  have hgrows := hstep.grows h
  refine ⟨?_, fun j hhas ↦ ?_⟩
  · rw [length_append, length_replicate, hs.length]
    have := hgrows.seq
    omega
  have hold (hhas : p.due.Has j) (hseq : (p'.subs j).seq = (p.subs j).seq)
      (hready : ∀ τ, τ ≤ clock → τ ≤ (p.subs j).readyAt → τ ≤ (p'.subs j).readyAt) :
      ∃ τ, (stamps ++ replicate (p'.seq - p.seq) (e.now.getD 0))[(p'.subs j).seq]? = some τ ∧
        τ ≤ e.now.getD clock ∧ τ ≤ (p'.subs j).readyAt := by
    obtain ⟨τ, hτ, hle, hle'⟩ := hs.first j hhas
    refine ⟨τ, ?_, hle.trans hclock, hready τ hle hle'⟩
    rw [hseq, List.getElem?_append_left (List.getElem?_eq_some_iff.1 hτ).1]
    exact hτ
  have hnew {now : Int} (hnow : e.now = some now) (hlo : p.seq ≤ (p'.subs j).seq)
      (hhi : (p'.subs j).seq < p'.seq) (hready : now ≤ (p'.subs j).readyAt) :
      ∃ τ, (stamps ++ replicate (p'.seq - p.seq) (e.now.getD 0))[(p'.subs j).seq]? = some τ ∧
        τ ≤ e.now.getD clock ∧ τ ≤ (p'.subs j).readyAt := by
    refine ⟨now, ?_, by rw [hnow]; exact le_rfl, hready⟩
    rw [hnow, ← hs.length]
    exact getElem?_stamp (hs.length.le.trans hlo) hhi
  obtain ⟨c, hc⟩ := (h.step hstep).queued j hhas
  cases hstep.effect h ((h.step hstep).lt_fresh hc) with
  | same _ hsub hhas' =>
    refine hold (hhas'.1 hhas) ?_ fun τ _ hτ ↦ ?_
    · rw [hsub]
    · rwa [hsub]
  | nudged _ hnudge =>
    cases hnudge with
    | same hsub hhas' =>
      refine hold (hhas'.1 hhas) ?_ fun τ _ hτ ↦ ?_
      · rw [hsub]
      · rwa [hsub]
    | remarked _ _ hhas' => exact absurd hhas hhas'
    | queued _ _ _ hlo hhi hsub =>
      refine hnew rfl hlo hhi ?_
      rw [hsub]
      exact le_max_left _ _
    | advanced _ hhas₀ _ _ hsub =>
      refine hold hhas₀ ?_ fun τ hτ _ ↦ ?_
      · rw [hsub]
      · rw [hsub]
        exact (hτ.trans hclock).trans (le_max_left _ _)
  | revised ha hr =>
    obtain ⟨hready, hlo, hhi⟩ := hr.of_has hhas
    refine hnew rfl hlo hhi ?_
    rw [hready]
    exact le_max_left _ _
  | admitted _ _ hhead _ ha => exact absurd hhead.symm ((ha.has j).1 hhas).2
  | @finished k job result now hj hk hjob hf =>
    subst hjob
    obtain ⟨-, hseq, hmark, -, hready⟩ := hf.adopt (hf.adopts_of_has h.toScheduled hk hhas)
    refine hnew rfl hmark.ge (by omega) ?_
    rw [hready]
    refine le_trans ?_ (le_max_left _ _)
    have hpos : 0 ≤ onlineSnapshotInterval := by decide
    split <;> omega
  | dropped _ _ hhas' => exact absurd hhas hhas'

/-! ### Overtaking -/

/-- Subscription `x` is queued under that revision. -/
def Waits (p : Presence L) (x : ℕ) (revision : Int) : Prop :=
  p.due.Has x ∧ (p.subs x).revision = revision

instance (p : Presence L) (x : ℕ) (revision : Int) : Decidable (p.Waits x revision) :=
  inferInstanceAs (Decidable (_ ∧ _))

/-- **A waiting subscription only moves up**, and then to a reading of the clock. -/
theorem Waits.readyAt (hw : p.Waits x revision) (hw' : p'.Waits x revision) (h : Sound p)
    (hstep : Step p e entries p') :
    (p'.subs x).readyAt = (p.subs x).readyAt ∨ ∃ now, e.now = some now ∧
      now ≤ (p'.subs x).readyAt ∧ (p'.subs x).readyAt ≤ (p.subs x).readyAt := by
  obtain ⟨hhas, hrevision⟩ := hw
  obtain ⟨hhas', hrevision'⟩ := hw'
  obtain ⟨c, hc⟩ := h.queued x hhas
  cases hstep.effect h ((h.lt_fresh hc).trans_le (hstep.grows h).fresh) with
  | same _ hsub => exact .inl (by rw [hsub])
  | nudged _ hnudge =>
    cases hnudge with
    | same hsub => exact .inl (by rw [hsub])
    | remarked _ hnot | queued _ hnot => exact absurd hhas hnot
    | advanced _ _ _ hlt hsub =>
      rw [hsub]
      exact .inr ⟨_, rfl, le_max_left _ _, hlt.le⟩
  | revised ha hr =>
    -- a new revision is a greater one
    have hlt := ha.revision
    rw [prepared_subs (h.lt_fresh hc), hrevision, ← hrevision', show (p'.subs x).revision = _ by
      rw [hr.core]] at hlt
    exact absurd hlt (lt_irrefl _)
  | admitted _ _ hhead _ ha => exact absurd hhead.symm ((ha.has x).1 hhas').2
  | finished _ hk hjob _ =>
    subst hjob
    exact absurd hhas (h.not_has_running hk)
  | dropped _ _ hnot => exact absurd hhas' hnot

/-- **What happened while `x` waits**: of one connection's admissions all but the newest were before
the moment at which `x` is ready, and none was for a mark made after that moment. -/
structure Overtaken (p : Presence L) (x : ℕ) (seg : List PresenceEntry) (stamps : List Int)
    (clock : Int) : Prop where
  once : ∀ c, ∀ a ∈ (seg.filterMap (PresenceEntry.admittedAt c)).tail, a < (p.subs x).readyAt
  past : ∀ c, ∀ a ∈ seg.filterMap (PresenceEntry.admittedAt c), a ≤ clock
  early : ∀ c a m revision userIds, .admitted c a m revision userIds ∈ seg →
    ∃ τ, stamps[m]? = some τ ∧ τ ≤ clock ∧ τ ≤ (p.subs x).readyAt

theorem Overtaken.nil {clock : Int} : Overtaken p x [] stamps clock :=
  ⟨nofun, nofun, nofun⟩

theorem Overtaken.step {clock : Int} (ho : Overtaken p x seg stamps clock) (h : Sound p)
    (hp : Paced p (seg ++ log)) (hs : Stamped p stamps clock) (hstep : Step p e entries p')
    (hw : p.Waits x revision) (hw' : p'.Waits x revision) (hclock : clock ≤ e.now.getD clock) :
    Overtaken p' x (entries ++ seg)
      (stamps ++ replicate (p'.seq - p.seq) (e.now.getD 0)) (e.now.getD clock) := by
  have hstamp {m : ℕ} {τ : Int} (hτ : stamps[m]? = some τ) :
      (stamps ++ replicate (p'.seq - p.seq) (e.now.getD 0))[m]? = some τ := by
    rwa [List.getElem?_append_left (List.getElem?_eq_some_iff.1 hτ).1]
  have hready := hw.readyAt hw' h hstep
  rcases hstep.dispatch_cases with hnone | ⟨now, frames, rfl, rfl, hlen, hdue, ha⟩
  · refine ⟨fun c a ↦ ?_, fun c a ↦ ?_, fun c a m ρ userIds hmem ↦ ?_⟩
    · rw [filterMap_append, filterMap_admittedAt hnone, nil_append]
      intro hmem
      rcases hready with heq | ⟨now, hnow, hle, -⟩
      · rw [heq]
        exact ho.once c a hmem
      · -- there is a later admission, and it is in the past
        rcases hlist : seg.filterMap (PresenceEntry.admittedAt c) with - | ⟨b, bs⟩
        · rw [hlist] at hmem
          cases hmem
        · have hspaced := hp.spaced c
          have hpast := ho.past c b (hlist ▸ mem_cons_self)
          rw [filterMap_append, hlist] at hspaced
          rw [hlist] at hmem
          have hgap := (pairwise_cons.1 hspaced).1 a (mem_append_left _ hmem)
          rw [hnow] at hclock
          have hpos : 0 < onlineRefreshMinInterval := by decide
          simp only [getD_some] at hclock
          omega
    · rw [filterMap_append, filterMap_admittedAt hnone, nil_append]
      exact fun hmem ↦ (ho.past c a hmem).trans hclock
    · rcases mem_append.1 hmem with hmem | hmem
      · cases hnone _ hmem
      · obtain ⟨τ, hτ, hle, hle'⟩ := ho.early c a m ρ userIds hmem
        refine ⟨τ, hstamp hτ, hle.trans hclock, ?_⟩
        rcases hready with heq | ⟨now, hnow, hnow', -⟩
        · rwa [heq]
        · rw [hnow] at hclock
          exact (hle.trans hclock).trans hnow'
  · have hne : x ≠ p.due.slot 0 := ((ha.has x).1 hw'.1).2
    have hsub := ha.other x hne
    have hhead : (p.subs (p.due.slot 0)).readyAt ≤ (p.subs x).readyAt := by
      have hle := h.heap.head_le hw.1
      rw [key, key, Prod.Lex.toLex_le_toLex] at hle
      rcases hle with hlt | ⟨heq, -⟩
      · exact hlt.le
      · exact heq.le
    refine ⟨fun c a ↦ ?_, fun c a ↦ ?_, fun c a m ρ userIds hmem ↦ ?_⟩
    · rw [singleton_append, filterMap_cons, admittedAt_admission, hsub]
      split_ifs with hc
      · intro hmem
        have hgap := hp.head h hlen (a := a) (by
          rw [hc, filterMap_append]
          exact mem_append_left _ hmem)
        have hpos : 0 < onlineRefreshMinInterval := by decide
        omega
      · exact ho.once c a
    · rw [singleton_append, filterMap_cons, admittedAt_admission]
      split_ifs with hc
      · intro hmem
        rcases mem_cons.1 hmem with rfl | hmem
        · exact le_rfl
        · exact (ho.past c a hmem).trans hclock
      · exact fun hmem ↦ (ho.past c a hmem).trans hclock
    · rw [hsub]
      rcases mem_cons.1 hmem with heq | hmem
      · obtain ⟨rfl, rfl, rfl, -, -⟩ := PresenceEntry.admitted.inj heq
        obtain ⟨τ, hτ, hle, hle'⟩ := hs.first _ (h.heap.has_head hlen)
        exact ⟨τ, hstamp hτ, hle.trans hclock, hle'.trans hhead⟩
      · obtain ⟨τ, hτ, hle, hle'⟩ := ho.early c a m ρ userIds hmem
        exact ⟨τ, hstamp hτ, hle.trans hclock, hle'⟩

/-- An admission takes a least queued subscription. -/
theorem Step.admits_least {c m : ℕ} {a : Int} {userIds : List String} (h : Sound p)
    (hstep : Step p e entries p') (hentry : .admitted c a m revision userIds ∈ entries) :
    ∃ i, p.due.Has i ∧ (p.subs i).client = c ∧ (p.subs i).seq = m ∧ ∀ j, p.due.Has j →
      (p.subs i).readyAt < (p.subs j).readyAt ∨
        (p.subs i).readyAt = (p.subs j).readyAt ∧ (p.subs i).seq ≤ (p.subs j).seq := by
  rcases hstep.dispatch_cases with hnone | ⟨now, frames, rfl, rfl, hlen, -⟩
  · cases hnone _ hentry
  · obtain ⟨rfl, -, rfl, -, -⟩ := PresenceEntry.admitted.inj (mem_singleton.1 hentry)
    refine ⟨p.due.slot 0, h.heap.has_head hlen, rfl, rfl, fun j hj ↦ ?_⟩
    have hle := h.heap.head_le hj
    rwa [key, key, Prod.Lex.toLex_le_toLex] at hle

/-! ### Timed runs -/

variable {frames : L} {start : Int} {s s' : TimedRun L}

theorem timed_next (h : s.next env e = some s') : s.clock ≤ e.now.getD s.clock ∧
    s.run.next env e = some s'.run ∧ s'.clock = e.now.getD s.clock := by
  rw [TimedRun.next] at h
  split at h
  next hle =>
    obtain ⟨run, hrun, rfl⟩ := map_eq_some_iff.1 h
    exact ⟨hle, hrun, rfl⟩
  · cases h

/-- What holds of a timed run at every moment. -/
structure Fair (s : TimedRun L) : Prop where
  sound : Sound s.run.sched
  paced : Paced s.run.sched s.run.log
  stamped : Stamped s.run.sched s.run.stamps s.clock

theorem Fair.step (h : Fair s) (hnext : s.next env e = some s') :
    Fair s' ∧ ∃ entries, Step s.run.sched e entries s'.run.sched ∧
      s'.run.log = entries ++ s.run.log ∧ s.clock ≤ e.now.getD s.clock ∧
      s'.clock = e.now.getD s.clock ∧ s'.run.stamps = s.run.stamps ++
        replicate (s'.run.sched.seq - s.run.sched.seq) (e.now.getD 0) := by
  obtain ⟨hclock, hrun, hclock'⟩ := timed_next hnext
  obtain ⟨entries, hstep, hlog⟩ := h.sound.step_cases hrun
  have hstamps := stamps_next h.sound hrun
  refine ⟨⟨h.sound.step hstep, ?_, ?_⟩, entries, hstep, hlog, hclock, hclock', hstamps⟩
  · rw [hlog]
    exact h.paced.step h.sound hstep
  · rw [hstamps, hclock']
    exact h.stamped.step h.sound hstep hclock

theorem fair (h : (timedPresence ι env frames start).Reachable s) : Fair s := by
  refine System.invariant (I := Fair) (fun s hs ↦ ?_) (fun s e s' _ hs hstep ↦ (hs.step hstep).1) h
  rw [show s = _ from hs]
  refine ⟨sound_new frames, ⟨fun _ ↦ .nil, nofun, fun i hi ↦ ?_⟩, rfl, fun i hi ↦ ?_⟩
  all_goals exact absurd hi (Heap.not_has_empty 0)

/-- **While `x` waits**, a path overtakes it as `Overtaken` says. -/
theorem Fair.overtaken {t : List (PresenceEvent ι)} (h : Fair s) (hw : s.run.sched.Waits x revision)
    (hpath : ((timedPresence ι env frames start).within
      fun s ↦ s.run.sched.Waits x revision).Path s t s') :
    ∃ seg, s'.run.log = seg ++ s.run.log ∧ Overtaken s'.run.sched x seg s'.run.stamps s'.clock := by
  have hall : Fair s' ∧ s'.run.sched.Waits x revision ∧ ∃ seg, s'.run.log = seg ++ s.run.log ∧
      Overtaken s'.run.sched x seg s'.run.stamps s'.clock := by
    refine hpath.preserves (P := fun s' ↦ Fair s' ∧ s'.run.sched.Waits x revision ∧
      ∃ seg, s'.run.log = seg ++ s.run.log ∧ Overtaken s'.run.sched x seg s'.run.stamps s'.clock)
      ?_ ⟨h, hw, [], rfl, .nil⟩
    rintro s₁ e s₂ ⟨hfair, hw₁, seg, hlog, ho⟩ ⟨hnext, hw₂⟩
    obtain ⟨hfair', entries, hstep, hlog', hclock, hclock', hstamps⟩ := hfair.step hnext
    refine ⟨hfair', hw₂, entries ++ seg, by rw [hlog', hlog, append_assoc], ?_⟩
    rw [hstamps, hclock']
    exact ho.step hfair.sound (hlog ▸ hfair.paced) hfair.stamped hstep hw₁ hw₂ hclock
  exact hall.2.2

theorem length_filter_le_one {l : List Int} {r : Int} (h : ∀ a ∈ l.tail, a < r) :
    (l.filter (r ≤ ·)).length ≤ 1 := by
  rcases l with - | ⟨a, l⟩
  · exact Nat.zero_le _
  · have hnil : l.filter (r ≤ ·) = [] :=
      filter_eq_nil_iff.2 fun b hb ↦ by simpa using h b hb
    rw [filter_cons, hnil]
    split <;> simp

end Presence

open Presence

variable {L ι : Type} {env : OnlineEnv L} {frames : L} {start : Int} {s : TimedRun L}

/-- **The presence scheduler is fair**, in every run whose clock readings do not decrease:
admissions of a connection are `onlineRefreshMinInterval` apart; a subscription that stays queued
under one revision is never put off; an admission takes a least queued subscription; and while a
subscription waits, every connection is admitted at most once from the moment on at which it is
ready, and never for a mark that was first queued after that moment. -/
theorem refreshes_fair (h : (timedPresence ι env frames start).Reachable s) :
    (∀ c, (s.run.log.filterMap (PresenceEntry.admittedAt c)).Pairwise
      fun a b ↦ b + onlineRefreshMinInterval ≤ a) ∧
    (∀ e s' x revision, (timedPresence ι env frames start).step s e s' →
      s.run.sched.Waits x revision → s'.run.sched.Waits x revision →
      (s'.run.sched.subs x).readyAt ≤ (s.run.sched.subs x).readyAt) ∧
    (∀ (e : PresenceEvent ι) s' c a m revision userIds,
      (timedPresence ι env frames start).step s e s' →
      s'.run.log = .admitted c a m revision userIds :: s.run.log →
      ∃ i, s.run.sched.due.Has i ∧ (s.run.sched.subs i).client = c ∧
        (s.run.sched.subs i).seq = m ∧ ∀ j, s.run.sched.due.Has j →
          (s.run.sched.subs i).readyAt < (s.run.sched.subs j).readyAt ∨
            (s.run.sched.subs i).readyAt = (s.run.sched.subs j).readyAt ∧
              (s.run.sched.subs i).seq ≤ (s.run.sched.subs j).seq) ∧
    (∀ x revision t s' seg, s.run.sched.Waits x revision →
      ((timedPresence ι env frames start).within
        fun s ↦ s.run.sched.Waits x revision).Path s t s' →
      s'.run.log = seg ++ s.run.log →
      (∀ c, ((seg.filterMap (PresenceEntry.admittedAt c)).filter
        ((s'.run.sched.subs x).readyAt ≤ ·)).length ≤ 1) ∧
      ∀ c a m revision userIds, .admitted c a m revision userIds ∈ seg →
        ∃ τ, s'.run.stamps[m]? = some τ ∧ τ ≤ (s'.run.sched.subs x).readyAt) := by
  have hfair := fair h
  refine ⟨hfair.paced.spaced, fun e s' x revision hstep hw hw' ↦ ?_,
    fun e s' c a m revision userIds hstep hlog ↦ ?_, fun x revision t s' seg hw hpath hlog ↦ ?_⟩
  · obtain ⟨-, entries, hstep, -⟩ := hfair.step hstep
    rcases hw.readyAt hw' hfair.sound hstep with heq | ⟨now, -, -, hle⟩
    · exact heq.le
    · exact hle
  · obtain ⟨-, entries, hstep, hlog', -⟩ := hfair.step hstep
    obtain rfl : entries = [.admitted c a m revision userIds] :=
      List.append_cancel_right (hlog'.symm.trans hlog)
    exact hstep.admits_least hfair.sound (List.mem_singleton_self _)
  · obtain ⟨seg', hlog', ho⟩ := hfair.overtaken hw hpath
    obtain rfl : seg' = seg := List.append_cancel_right (hlog'.symm.trans hlog)
    refine ⟨fun c ↦ length_filter_le_one (ho.once c), fun c a m revision userIds hmem ↦ ?_⟩
    obtain ⟨τ, hτ, -, hle⟩ := ho.early c a m revision userIds hmem
    exact ⟨τ, hτ, hle⟩

namespace FairnessDemo

/-- Connections 1, 2 and 3, whose objects are 0, 1 and 2, subscribe at 10. -/
def subscribers : List (PresenceEvent Unit) :=
  [1, 2, 3].map fun c ↦ .subscribe c { revision := 1, userIds := ["nx__a"] } 10

/-- The entry for the admission of one of them. -/
def turnOf (c : ℕ) (a : Int) : PresenceEntry := .admitted c a (c - 1) 1 ["nx__a"]

end FairnessDemo

open PresenceDemo FairnessDemo in
/-- The first two are admitted while the third waits: it is overtaken once by each of them, by no
later mark, and not put off. -/
theorem refreshes_fair_demo : ∃ s s' s'' : TimedRun Unit,
    System.replay (TimedRun.next openNode) { run := { sched := .new () }, clock := 0 } subscribers =
      some s ∧
    s.next openNode (.turn 10 : PresenceEvent Unit) = some s' ∧
    s'.next openNode (.turn 11 : PresenceEvent Unit) = some s'' ∧
    s''.run.log = [turnOf 2 11, turnOf 1 10] ++ s.run.log ∧
    (s'.run.sched.subs 2).readyAt ≤ (s.run.sched.subs 2).readyAt ∧
    ∀ m < 2, ∃ τ, s''.run.stamps[m]? = some τ ∧ τ ≤ (s''.run.sched.subs 2).readyAt := by
  have hrun : (System.replay (TimedRun.next openNode) { run := { sched := .new () }, clock := 0 }
      subscribers).bind (fun s ↦ (s.next openNode (.turn 10 : PresenceEvent Unit)).bind fun s' ↦
        (s'.next openNode (.turn 11 : PresenceEvent Unit)).map fun s'' ↦
          (decide (s.run.sched.Waits 2 1), decide (s'.run.sched.Waits 2 1),
            decide (s''.run.sched.Waits 2 1),
            decide (s''.run.log = [turnOf 2 11, turnOf 1 10] ++ s.run.log))) =
      some (true, true, true, true) := by
    decide +kernel
  obtain ⟨s, hs, hrun⟩ := Option.bind_eq_some_iff.1 hrun
  obtain ⟨s', hs', hrun⟩ := Option.bind_eq_some_iff.1 hrun
  obtain ⟨s'', hs'', hval⟩ := Option.map_eq_some_iff.1 hrun
  simp only [Prod.mk.injEq, decide_eq_true_eq] at hval
  obtain ⟨hw, hw', hw'', hlog⟩ := hval
  have hreach : (timedPresence Unit openNode () 0).Reachable s := System.reachable_of_replay hs
  obtain ⟨-, hready, -, hovertaken⟩ := refreshes_fair hreach
  have hpath : ((timedPresence Unit openNode () 0).within fun s ↦ s.run.sched.Waits 2 1).Path s
      [.turn 11, .turn 10] s'' := .step (.step (.refl s) ⟨hs', hw'⟩) ⟨hs'', hw''⟩
  have hearly := (hovertaken 2 1 _ s'' _ hw hpath hlog).2
  refine ⟨s, s', s'', hs, hs', hs'', hlog, hready _ _ 2 1 hs' hw hw', fun m hm ↦ ?_⟩
  rcases Nat.le_one_iff_eq_zero_or_eq_one.1 (Nat.le_of_lt_succ hm) with rfl | rfl
  · exact hearly 1 10 0 1 _ (List.mem_cons_of_mem _ (List.mem_singleton_self _))
  · exact hearly 2 11 1 1 _ List.mem_cons_self

end Nexo.Gateway
