import Nexo.Gateway.PresenceEffect
import Nexo.Guarantees.Presence

/-!
# No presence event is lost

An event marks the connections that watch a user. From then on, until a read is dispatched for it, a
live connection that still has an active subscription carries the mark: on its place in the queue,
or on the read that it has in flight, whose end queues it. The mark is due at the reading of the
event, of the last revision since, or of the end of that read, whichever came last, and not before
`nextAttempt`. No step can drop it, because every step that takes one carrier away puts the mark on
the other (`Pending.step`). The clock readings may be any.
-/

namespace Nexo.Gateway

open Machine List

/-- The reading at which a mark made at `t` for connection `c` is due, after these entries. -/
def dueBy (c : ℕ) (t : Int) (seg : List PresenceEntry) : Int :=
  match seg.find? fun x ↦ x.client = c with
  | none => t
  | some (.revised _ r) => max t r
  | some (.admitted _ a _ _ _) => a
  | some (.finished _ f) => f

theorem dueBy_append {c : ℕ} {entries seg : List PresenceEntry} (t : Int)
    (h : ∀ x ∈ entries, x.client ≠ c) : dueBy c t (entries ++ seg) = dueBy c t seg := by
  have hnone : entries.find? (fun x ↦ decide (x.client = c)) = none := by
    simpa using h
  rw [dueBy, find?_append, hnone, Option.none_or]
  rfl

namespace Presence

variable {L ι : Type} {env : OnlineEnv L} {p p' : Presence L} {c i j : ℕ} {t now : Int}
  {seg : List PresenceEntry}

/-! ### Where the mark is -/

/-- **Subscription `j` carries the mark** since `seg`, if it watches anybody. -/
structure Pending (p : Presence L) (c : ℕ) (t : Int) (seg : List PresenceEntry) (j : ℕ) : Prop where
  unfinished : (p.subs j).cancel = true → ∀ f, .finished c f ∉ seg
  placed : (p.subs j).userIds ≠ [] →
    p.due.Has j ∧ (p.subs j).readyAt ≤ max (dueBy c t seg) (p.subs j).nextAttempt ∨
      (p.subs j).cancel = true ∧ (p.subs j).remark = true

theorem Pending.nudge (h : Pending p c t seg j) (hnudge : Nudge p j now p') : Pending p' c t seg j := by
  cases hnudge with
  | same hsub hhas =>
    refine ⟨fun hc ↦ h.unfinished (hsub ▸ hc), fun hne ↦ ?_⟩
    rw [hsub] at hne ⊢
    rw [hhas]
    exact h.placed hne
  | remarked hcancel hhas hhas' hsub =>
    refine ⟨fun _ ↦ h.unfinished hcancel, fun _ ↦ .inr ?_⟩
    rw [hsub]
    exact ⟨hcancel, rfl⟩
  | queued hcancel hhas hhas' hlo hhi hsub =>
    -- a mark that is carried is not queued anew
    refine ⟨fun hc ↦ ?_, fun hne ↦ ?_⟩
    · rw [hsub] at hc
      cases hcancel.symm.trans hc
    · rw [hsub] at hne
      rcases h.placed hne with hq | hf
      · exact absurd hq.1 hhas
      · cases hcancel.symm.trans hf.1
  | advanced hcancel hhas hhas' hlt hsub =>
    refine ⟨fun hc ↦ ?_, fun hne ↦ .inl ⟨hhas', ?_⟩⟩
    · rw [hsub] at hc
      cases hcancel.symm.trans hc
    · rw [hsub] at hne ⊢
      rcases h.placed hne with hq | hf
      · exact hlt.le.trans hq.2
      · cases hcancel.symm.trans hf.1

theorem Pending.revised {req : SubscriptionRequest} (ha : Accepted p c req now j p')
    (hr : Revised p ((p.prepared c).subs j) req now j p')
    (hprev : j < p.fresh → (p.subs j).client = c → Pending p c t seg j) (h : Sound p) :
    Pending p' c t (.revised c now :: seg) j := by
  have hdue : dueBy c t (.revised c now :: seg) = max t now := by simp [dueBy, PresenceEntry.client]
  have hcore := hr.core
  refine ⟨fun hc f hf ↦ ?_, fun hne ↦ ?_⟩
  · rw [hcore] at hc
    -- a new object has no read in flight
    rcases hi : p.onlineSub c with - | i
    · have hsub := ha.sub
      rw [prepared_of_none hi] at hc hsub
      obtain rfl : p.fresh = j := by simpa using hsub
      simp [write] at hc
    · have hsub := ha.sub
      rw [prepared_of_some hi] at hc hsub
      obtain ⟨hlt, hclient⟩ := h.current c j hsub
      exact (hprev hlt hclient).unfinished hc f (by simpa using hf)
  · rw [hdue]
    rw [hcore] at hne
    rcases hcancel : ((p.prepared c).subs j).cancel with - | -
    · obtain ⟨-, hhas, hready, -⟩ := hr.queued hne hcancel
      refine .inl ⟨hhas, ?_⟩
      rw [hready, clamp, hcore]
      exact max_le_max_right _ (le_max_right t now)
    · obtain ⟨hremark, -⟩ := hr.reading hne hcancel
      exact .inr ⟨by rw [hcore]; exact hcancel, hremark⟩

section

variable (h : Sound p)
include h

theorem Pending.finished {running : List OnlineRead} (hj : j < p.fresh)
    (hmem : j ∈ p.inFlight) (hf : Finished p running j now p') (hclient : (p.subs j).client = c)
    (hlive : p.Live c) (hprev : Pending p c t seg j) : Pending p' c t (.finished c now :: seg) j := by
  have hdue : dueBy c t (.finished c now :: seg) = now := by simp [dueBy, PresenceEntry.client]
  have hcore := hf.core
  have hcancel := (h.flight j).2 hmem
  refine ⟨fun hc ↦ ?_, fun hne ↦ .inl ?_⟩
  · rw [hcore] at hc
    cases hc
  · rw [hcore] at hne
    obtain ⟨hd, hc, hs⟩ := hlive
    have hadopts : p.adopts j = true := by
      rw [adopts_eq_true, hclient]
      refine ⟨hs, hc, hd, ?_, hne⟩
      have honline := h.live j hj (hclient ▸ hd) hs
      rwa [hclient] at honline
    obtain ⟨hhas, -, -, -, hready⟩ := hf.adopt hadopts
    rcases hprev.placed hne with ⟨hq, -⟩ | ⟨-, hremark⟩
    · rw [h.apart j hq] at hcancel
      cases hcancel
    · refine ⟨(hhas j).2 (.inr rfl), ?_⟩
      rw [hready, hremark, if_pos rfl, clamp, hdue, hcore]

/-- **A step keeps the mark**, as long as it does not dispatch a read for the connection. -/
theorem Pending.step {e : PresenceEvent ι} {entries : List PresenceEntry}
    (hstep : Step p e entries p') (hj : j < p'.fresh) (hclient : (p'.subs j).client = c)
    (hlive : p'.Live c) (hnone : ∀ x ∈ entries, x.client = c → x.dispatch = false)
    (hprev : j < p.fresh → (p.subs j).client = c → Pending p c t seg j) :
    Pending p' c t (entries ++ seg) j := by
  have hlive₀ := (hstep.grows h).live hlive
  cases hstep.effect h hj with
  | same hj hsub hhas hentries =>
    rw [hsub] at hclient
    rw [hclient] at hentries
    obtain ⟨hunfinished, hplaced⟩ := hprev hj hclient
    refine ⟨fun hc f hf ↦ ?_, fun hne ↦ ?_⟩
    · rcases mem_append.1 hf with hf | hf
      · exact hentries _ hf rfl
      · exact hunfinished (hsub ▸ hc) f hf
    · rw [hsub] at hne ⊢
      rw [dueBy_append t hentries, hhas]
      exact hplaced hne
  | nudged hj hnudge =>
    rw [hnudge.core] at hclient
    exact (hprev hj hclient).nudge hnudge
  | @revised c' req now ha hr =>
    obtain rfl : c' = c := by
      obtain ⟨-, honline, -⟩ := ha.frame h
      have hs := h.step hstep
      rw [← hclient]
      exact (hs.current c' j (by rw [honline]; exact ha.sub)).2.symm
    exact .revised ha hr hprev h
  | admitted hj hlen hhead hready ha =>
    subst hhead
    rw [ha.self] at hclient
    exact nomatch hnone _ (mem_singleton_self _) hclient
  | @finished k job result now hj hk hjob hf =>
    rw [hf.core] at hclient
    rw [hclient]
    have hmem : j ∈ p.inFlight :=
      hjob ▸ mem_map_of_mem (mem_append_right _ (mem_of_getElem? hk))
    exact .finished h hj hmem hf hclient hlive₀ (hprev hj hclient)
  | dropped hj hsub hhas hdead =>
    rw [hsub] at hclient
    rw [hclient] at hdead
    simp [hlive.1, hlive.2.2] at hdead

/-! ### The event -/

/-- A mark is carried by the subscription that it is made for. -/
theorem Pending.of_mark (c i : ℕ) (t : Int) : Pending (p.mark (some i) t) c t [] i := by
  have hcore := mark_core h.heap i t i
  refine ⟨fun _ _ ↦ not_mem_nil, fun _ ↦ ?_⟩
  rcases hcancel : (p.subs i).cancel with - | -
  · have hreq := requeued h.heap i t
    rw [mark_of_idle hcancel] at hcore ⊢
    refine .inl ⟨(hreq.has i).2 (.inr rfl), ?_⟩
    have hready : ((p.requeue i t).subs i).readyAt ≤ clamp (p.subs i) t := by
      rw [hreq.readyAt]
      split
      · exact min_le_right _ _
      · exact le_rfl
    rw [hcore]
    exact hready
  · rw [mark_of_cancel hcancel, write_subs_self]
    exact .inr ⟨hcancel, rfl⟩

theorem Pending.of_markAll {clients : List ℕ} (hi : p.active.lookup c = some i)
    (hc : c ∈ clients) (t : Int) :
    Pending (clients.foldl (fun p c ↦ p.mark (p.active.lookup c) t) p) c t [] i := by
  induction clients generalizing p with
  | nil => cases hc
  | cons c' clients ih =>
    rw [foldl_cons]
    by_cases heq : c = c'
    · -- later marks at the same reading do not take it away
      subst heq
      rw [hi]
      exact (Pending.of_mark h c i t).nudge ((h.mark hi t).nudge_markAll clients t i).1
    · have hc := (mem_cons.1 hc).resolve_left heq
      rcases hi' : p.active.lookup c' with - | i'
      · exact ih h hi hc
      · refine ih (h.mark hi' t) ?_ hc
        rw [mark_frame h.heap]
        exact hi

/-- **An event marks** every connection that watches the user. -/
theorem Pending.of_changed {userIds : List String} {visits : List (List ℕ)} {id : String}
    (hvisits : List.Forall₂ (fun id l ↦ Yields (watchers p.byUser id) l) userIds visits)
    (hid : id ∈ userIds) (hi : p.active.lookup c = some i) (hwatch : id ∈ (p.subs i).userIds)
    (hlive : p.Live c) (t : Int) : Pending (p.markOnlineChanged visits t) c t [] i := by
  have hvisit : ∃ l ∈ visits, Yields (watchers p.byUser id) l := by
    induction hvisits with
    | nil => cases hid
    | cons hl _ ih =>
      rcases mem_cons.1 hid with rfl | hid
      · exact ⟨_, mem_cons_self, hl⟩
      · obtain ⟨l, hmem, hl⟩ := ih hid
        exact ⟨l, mem_cons_of_mem _ hmem, hl⟩
  have hc : c ∈ visits.flatten := by
    obtain ⟨l, hmem, -, hl⟩ := hvisit
    refine mem_flatten.2 ⟨l, hmem, mem_toFinset.1 ?_⟩
    rw [hl]
    exact (h.watched id c).2 ⟨i, hi, hwatch⟩
  rw [Presence.markOnlineChanged, if_neg (by simp [hlive.2.1, hlive.2.2])]
  exact .of_markAll h hi hc t

theorem Pending.of_event {userIds : List String} {visits : List (List ℕ)} {id : String}
    {entries : List PresenceEntry}
    (hstep : Step p (.changed userIds visits t : PresenceEvent ι) entries p')
    (hid : id ∈ userIds) (hi : p.active.lookup c = some i) (hwatch : id ∈ (p.subs i).userIds)
    (hlive : p'.Live c) (hj : j < p'.fresh) (hclient : (p'.subs j).client = c) :
    Pending p' c t [] j := by
  have hlive₀ := (hstep.grows h).live hlive
  cases hstep with
  | changed hvisits =>
    obtain ⟨hnudge, hframe⟩ := h.nudge_markOnlineChanged visits t j
    -- the client has no other object
    obtain rfl : j = i := by
      have hi' := h.current c i ((h.active c i).1 hi).1
      rw [hframe] at hj
      rw [hnudge.core] at hclient
      exact h.owner j hj i hi'.1 (hclient.trans hi'.2.symm)
    exact .of_changed h hvisits hid hi hwatch hlive₀ t

end

/-! ### Runs -/

/-- **A run keeps the mark.** -/
theorem Pending.path {frames : L} {s₁ s₂ : PresenceRun L} {labels : List (PresenceEvent ι)}
    (hreach : (presence ι env frames).Reachable s₁)
    (hpath : (presence ι env frames).Path s₁ labels s₂)
    (h : s₁.sched.Live c →
      ∀ j < s₁.sched.fresh, (s₁.sched.subs j).client = c → Pending s₁.sched c t [] j) :
    ∃ seg, s₂.log = seg ++ s₁.log ∧ ((∀ x ∈ seg, x.client = c → x.dispatch = false) →
      s₂.sched.Live c →
      ∀ j < s₂.sched.fresh, (s₂.sched.subs j).client = c → Pending s₂.sched c t seg j) := by
  refine (hpath.keeps (P := fun s ↦ ∃ seg, s.log = seg ++ s₁.log ∧
    ((∀ x ∈ seg, x.client = c → x.dispatch = false) → s.sched.Live c →
      ∀ j < s.sched.fresh, (s.sched.subs j).client = c → Pending s.sched c t seg j))
    (fun s e s' hs ⟨seg, hlog, hseg⟩ hstep ↦ ?_) hreach ⟨[], rfl, fun _ ↦ h⟩).2
  have hsound := sound hs
  obtain ⟨entries, hstep, hentries⟩ := hsound.step_cases hstep
  refine ⟨entries ++ seg, by rw [hentries, hlog, append_assoc], fun hnone hlive j hj hclient ↦ ?_⟩
  exact .step hsound hstep hj hclient hlive (fun x hx ↦ hnone x (mem_append_left _ hx))
    (hseg (fun x hx ↦ hnone x (mem_append_right _ hx)) ((hstep.grows hsound).live hlive) j)

end Presence

open Presence

variable {L ι : Type} {env : OnlineEnv L} {frames : L}

/-- **No presence event is lost**: since the event, which was the step to `s₁`, the history has
grown by `seg`, and no read was dispatched for connection `c`. -/
theorem no_event_lost {s s₁ s₂ : PresenceRun L} {userIds : List String} {visits : List (List ℕ)}
    {t : Int} {labels : List (PresenceEvent ι)} {seg : List PresenceEntry} {id : String} {c i j : ℕ}
    (hreach : (presence ι env frames).Reachable s)
    (hevent : (presence ι env frames).step s (.changed userIds visits t) s₁)
    (hid : id ∈ userIds) (hi : s.sched.active.lookup c = some i)
    (hwatch : id ∈ (s.sched.subs i).userIds) (hpath : (presence ι env frames).Path s₁ labels s₂)
    (hseg : s₂.log = seg ++ s₁.log) (hnone : ∀ x ∈ seg, x.client = c → x.dispatch = false)
    (hlive : s₂.sched.Live c) (hj : s₂.sched.active.lookup c = some j) :
    s₂.sched.due.Has j ∧
        (s₂.sched.subs j).readyAt ≤ max (dueBy c t seg) (s₂.sched.subs j).nextAttempt ∨
      j ∈ s₂.sched.inFlight ∧ (s₂.sched.subs j).remark = true ∧ ∀ f, .finished c f ∉ seg := by
  have hsound := sound hreach
  have hreach₁ := hreach.step hevent
  have hsound₂ := sound (hreach₁.path hpath)
  obtain ⟨entries, hstep, -⟩ := hsound.step_cases hevent
  obtain ⟨seg', hseg', hpending⟩ := Pending.path hreach₁ hpath fun hlive₁ j hj hclient ↦
    .of_event hsound hstep hid hi hwatch hlive₁ hj hclient
  obtain rfl : seg' = seg := List.append_cancel_right (hseg'.symm.trans hseg)
  obtain ⟨honline, hne⟩ := (hsound₂.active c j).1 hj
  obtain ⟨hlt, hclient⟩ := hsound₂.current c j honline
  obtain ⟨hunfinished, hplaced⟩ := hpending hnone hlive j hlt hclient
  rcases hplaced hne with hq | ⟨hcancel, hremark⟩
  · exact .inl hq
  · exact .inr ⟨(hsound₂.flight j).1 hcancel, hremark, hunfinished hcancel⟩

namespace EventsDemo

/-- Connection 1 subscribes at 10 and is read. -/
def readInFlight : List (PresenceEvent Unit) :=
  [.subscribe 1 { revision := 1, userIds := ["nx__a"] } 10, .turn 10, .take]

/-- What a run shows of connection 1, whose object is 0, and the history. -/
structure Glance where
  sub : Option ℕ
  userIds : List String
  inFlight : List ℕ
  dead : Bool
  log : List PresenceEntry
  deriving DecidableEq

def glance (s : PresenceRun Unit) : Glance where
  sub := s.sched.active.lookup 1
  userIds := (s.sched.subs 0).userIds
  inFlight := s.sched.inFlight
  dead := s.sched.done 1 || s.sched.closing || s.sched.stopped
  log := s.log

end EventsDemo

open PresenceDemo EventsDemo in
/-- An event at 20 finds that read in flight; a new revision at 30 leaves the mark on it, and its
failure at 40 queues the mark. -/
theorem no_event_lost_demo : ∃ s₁ s₂ : PresenceRun Unit,
    (System.replay (PresenceRun.next openNode) { sched := .new () } readInFlight).bind
      (·.next openNode (.changed ["nx__a"] [[1]] 20 : PresenceEvent Unit)) = some s₁ ∧
    System.replay (PresenceRun.next openNode) s₁ [.subscribe 1 { revision := 2, userIds := ["nx__b"] } 30,
      (.finish 0 none 40 : PresenceEvent Unit)] = some s₂ ∧
    s₂.sched.due.Has 0 ∧ (s₂.sched.subs 0).readyAt ≤ max 40 (s₂.sched.subs 0).nextAttempt := by
  have hrun : (System.replay (PresenceRun.next openNode) { sched := .new () } readInFlight).bind
      (fun s ↦ (s.next openNode (.changed ["nx__a"] [[1]] 20 : PresenceEvent Unit)).bind fun s₁ ↦
        (System.replay (PresenceRun.next openNode) s₁ [.subscribe 1
          { revision := 2, userIds := ["nx__b"] } 30, (.finish 0 none 40 : PresenceEvent Unit)]).map
          fun s₂ ↦ (glance s, glance s₁, glance s₂)) =
      some (⟨some 0, ["nx__a"], [0], false, [.admitted 1 10 0 1 ["nx__a"], .revised 1 10]⟩,
        ⟨some 0, ["nx__a"], [0], false, [.admitted 1 10 0 1 ["nx__a"], .revised 1 10]⟩,
        ⟨some 0, ["nx__b"], [], false,
          [.finished 1 40, .revised 1 30, .admitted 1 10 0 1 ["nx__a"], .revised 1 10]⟩) := by decide
  obtain ⟨s, hs, hrun⟩ := Option.bind_eq_some_iff.1 hrun
  obtain ⟨s₁, hs₁, hrun⟩ := Option.bind_eq_some_iff.1 hrun
  obtain ⟨s₂, hs₂, hval⟩ := Option.map_eq_some_iff.1 hrun
  simp only [glance, Prod.mk.injEq, Glance.mk.injEq, Bool.or_eq_false_iff] at hval
  obtain ⟨⟨hi, hids, -⟩, ⟨-, -, -, -, hlog₁⟩, hj, -, hflight, ⟨⟨hd, hc⟩, hst⟩, hlog₂⟩ := hval
  have hreach : (presence Unit openNode ()).Reachable s := System.reachable_of_replay hs
  have hpath : ∃ t, (presence Unit openNode ()).Path s₁ t s₂ := System.path_of_replay hs₂
  obtain ⟨labels, hpath⟩ := hpath
  have hseg : s₂.log = [.finished 1 40, .revised 1 30] ++ s₁.log := by rw [hlog₁, hlog₂]; rfl
  refine ⟨s₁, s₂, by rw [hs]; exact hs₁, hs₂, ?_⟩
  rcases no_event_lost hreach hs₁ (List.mem_singleton_self _) hi (hids ▸ List.mem_singleton_self _)
    hpath hseg (by simp [PresenceEntry.dispatch]) ⟨hd, hc, hst⟩ hj with hq | ⟨hmem, -⟩
  · exact hq
  · rw [hflight] at hmem
    cases hmem

end Nexo.Gateway
