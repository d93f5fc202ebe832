import Nexo.Lib.Local

/-!
# What a program does, whatever it is answered

Some properties of a call do not depend on the tables at all: in which order it asks, writes and
announces, and how often. `P.obeys A p tx es` says so of a program `p` that has had the events `es`
(newest first) so far: whatever it is answered, each next event stands in the relation `A` to those
before it. There are no histories here and no other processes; statements inside a transaction are
not events, as in a history.

`obeys_of_reachable` carries this over to the system: the events of a process in a history are those
of its program.
-/

namespace Relational

open List

variable {S : Signature} {Y : System S} {α β : Type}

/-- Every event stands in the relation `A` to the earlier ones; `tx` says whether a transaction is
open. An operation in the wrong mode is never run. -/
def obeys (A : List (Event Y) → Event Y → Prop) :
    Program S α → Bool → List (Event Y) → (α → Bool → List (Event Y) → Prop) → Prop
  | .ret a, tx, es, Q => Q a tx es
  | .call (.ext e) k, false, es, Q =>
    ∀ r, A es (.ext e r) ∧ obeys A (k r) false (.ext e r :: es) Q
  | .call (.stmt s) k, false, es, Q =>
    ∀ r, A es (.stmt s r) ∧ obeys A (k r) false (.stmt s r :: es) Q
  | .call .begin k, false, es, Q => obeys A (k true) true es Q ∧ obeys A (k false) false es Q
  | .call (.stmt _) k, true, es, Q => ∀ r, obeys A (k r) true es Q
  | .call .commit k, true, es, Q =>
    A es .commit ∧ obeys A (k true) false (.commit :: es) Q ∧ obeys A (k false) false es Q
  | .call .rollback k, true, es, Q => obeys A (k ()) false es Q
  | _, _, _, _ => True

section Rules

variable {A : List (Event Y) → Event Y → Prop} {Q : α → Bool → List (Event Y) → Prop}
  {p : Program S α}

/-- **Sequencing**, from what is known of the first part. -/
theorem obeys_bind_mono {Q' : β → Bool → List (Event Y) → Prop} {f : α → Program S β}
    (hf : ∀ a tx es, Q a tx es → obeys A (f a) tx es Q') :
    ∀ {tx : Bool} {es : List (Event Y)}, obeys A p tx es Q → obeys A (p >>= f) tx es Q' := by
  induction p with
  | ret a => exact fun hp ↦ hf _ _ _ hp
  | call o k ih =>
    intro tx es hp
    cases o <;> cases tx <;> simp only [obeys, Prog.call_bind] at hp ⊢
    · exact fun r ↦ ⟨(hp r).1, ih r (hp r).2⟩
    · exact fun r ↦ ih r (hp r)
    · exact ⟨ih _ hp.1, ih _ hp.2⟩
    · exact ⟨hp.1, ih _ hp.2.1, ih _ hp.2.2⟩
    · exact ih _ hp
    · exact fun r ↦ ⟨(hp r).1, ih r (hp r).2⟩

theorem obeys_bind {Q : β → Bool → List (Event Y) → Prop} {f : α → Program S β} {tx : Bool}
    {es : List (Event Y)} (h : obeys A p tx es fun a tx' es' ↦ obeys A (f a) tx' es' Q) :
    obeys A (p >>= f) tx es Q :=
  obeys_bind_mono (fun _ _ _ h ↦ h) h

theorem obeys_ite {c : Prop} [Decidable c] {q : Program S α} {tx : Bool} {es : List (Event Y)}
    (hp : c → obeys A p tx es Q) (hq : ¬ c → obeys A q tx es Q) :
    obeys A (if c then p else q) tx es Q := by
  split
  · next h => exact hp h
  · next h => exact hq h

/-- Where nothing is asked, everything goes. -/
theorem obeys_of_forall (hA : ∀ es ev, A es ev) (hQ : ∀ a tx es, Q a tx es) (p : Program S α) :
    ∀ (tx : Bool) (es : List (Event Y)), obeys A p tx es Q := by
  induction p with
  | ret a => exact fun _ _ ↦ hQ _ _ _
  | call o k ih =>
    intro tx es
    cases o <;> cases tx <;> simp only [obeys]
    · exact fun r ↦ ⟨hA _ _, ih r _ _⟩
    · exact fun r ↦ ih r _ _
    · exact ⟨ih _ _ _, ih _ _ _⟩
    · exact ⟨hA _ _, ih _ _ _, ih _ _ _⟩
    · exact ih _ _ _
    · exact fun r ↦ ⟨hA _ _, ih r _ _⟩

end Rules

/-! ### Parts of transactions -/

/-- Programs that run statements, do nothing else, and return values with `R`. -/
inductive Statements (R : α → Prop) : Program S α → Prop where
  | ret {a : α} (h : R a) : Statements R (.ret a)
  | stmt {s : S.Stmt} {k : S.Res s → Program S α} (h : ∀ r, Statements R (k r)) :
      Statements R (.call (.stmt s) k)

namespace Statements

variable {R : α → Prop} {R' : β → Prop} {p : Program S α}

theorem bind {f : α → Program S β} (hp : Statements R p) (hf : ∀ a, R a → Statements R' (f a)) :
    Statements R' (p >>= f) := by
  induction hp with
  | ret h => exact hf _ h
  | stmt _ ih => exact .stmt ih

theorem ite {c : Prop} [Decidable c] {q : Program S α} (hp : Statements R p) (hq : Statements R q) :
    Statements R (if c then p else q) := by
  split
  · exact hp
  · exact hq

/-- Inside a transaction they are no events. -/
theorem obeys {A : List (Event Y) → Event Y → Prop} (hp : Statements R p) {es : List (Event Y)}
    {Q : α → Bool → List (Event Y) → Prop} (h : ∀ a, R a → Q a true es) :
    obeys A p true es Q := by
  induction hp with
  | ret ha => exact h _ ha
  | stmt _ ih => exact ih

end Statements

/-! ### The events of a process -/

/-- The events of a process in a history, newest first. -/
def own (pid : ℕ) (H : Trace Y) : List (Event Y) :=
  (H.filter fun e ↦ e.who = some pid).map Entry.event

section Own

variable {pid : ℕ} {H : Trace Y}

@[simp] theorem own_cons_self {ev : Event Y} {d : S.Db} :
    own pid (⟨some pid, ev, d⟩ :: H) = ev :: own pid H := by
  simp [own]

theorem own_append {new : Trace Y} (h : ∀ e ∈ new, e.who ≠ some pid) :
    own pid (new ++ H) = own pid H := by
  have hnil : (new.filter fun e ↦ e.who = some pid) = [] :=
    filter_eq_nil_iff.2 fun e he ↦ by simpa using h e he
  rw [own, filter_append, hnil, nil_append, own]

theorem mem_own {ev : Event Y} : ev ∈ own pid H ↔ ∃ d, ⟨some pid, ev, d⟩ ∈ H := by
  simp only [own, mem_map, mem_filter, decide_eq_true_eq]
  constructor
  · rintro ⟨⟨who, ev', d⟩, ⟨he, rfl⟩, rfl⟩
    exact ⟨d, he⟩
  · rintro ⟨d, hd⟩
    exact ⟨_, ⟨hd, rfl⟩, rfl⟩

end Own

/-! ### Programs and processes -/

namespace Spec

variable {P : Spec Y} {pid : ℕ} {w w' : World Y} {A : Y.Call → List (Event Y) → Event Y → Prop}
  {c : Y.Call} {p : Proc Y}

/-- The rest of a call obeys, given what it has done. -/
def Obeying (A : Y.Call → List (Event Y) → Event Y → Prop) (c : Y.Call) (es : List (Event Y)) :
    Proc Y → Prop
  | .run p tx => obeys (A c) p tx.isSome es fun v tx' es' ↦ tx' = false → A c es' (.ret v)
  | .halted => True

/-- What is known of the events of a process. -/
structure Traced (A : Y.Call → List (Event Y) → Event Y → Prop) (pid : ℕ) (w : World Y)
    (c : Y.Call) : Prop where
  first : (own pid w.trace).getLast? = some (.start c)
  rest : ∀ p, w.procs pid = some p → Obeying A c (own pid w.trace) p
  past : ∀ ev es, ev :: es <:+ own pid w.trace → es = [] ∨ A c es ev

/-- One event more. -/
theorem Traced.log {ev : Event Y} {d : S.Db} (h : Traced A pid w c) (hev : A c (own pid w.trace) ev)
    (hp : Obeying A c (ev :: own pid w.trace) p) :
    Traced A pid ((w.log (some pid) ev d).set pid p) c where
  first := by
    have hfirst := h.first
    rw [World.trace_set, World.trace_log, own_cons_self]
    cases hes : own pid w.trace with
    | nil => rw [hes] at hfirst; cases hfirst
    | cons e es => rw [getLast?_cons_cons, ← hes]; exact hfirst
  rest q hq := by
    rw [World.procs_set_self] at hq
    rw [World.trace_set, World.trace_log, own_cons_self]
    exact Option.some.inj hq ▸ hp
  past ev' es hs := by
    rw [World.trace_set, World.trace_log, own_cons_self] at hs
    rcases suffix_cons_iff.1 hs with heq | hs
    · obtain ⟨rfl, rfl⟩ := cons.inj heq
      exact .inr hev
    · exact h.past ev' es hs

/-- A step that is not an event. -/
theorem Traced.set (h : Traced A pid w c) (hp : Obeying A c (own pid w.trace) p) :
    Traced A pid (w.set pid p) c where
  first := h.first
  rest q hq := by
    rw [World.procs_set_self] at hq
    exact Option.some.inj hq ▸ hp
  past := h.past

theorem Traced.acts (h : Traced A pid w c) (hp : w.procs pid = some p) (hact : Acts w pid p w') :
    Traced A pid w' c := by
  have hrest := h.rest p hp
  cases hact with
  | ext r => exact h.log (hrest r).1 (hrest r).2
  | stmt | stmtFail => exact h.log (hrest _).1 (hrest _).2
  | begin => exact h.set hrest.1
  | beginFail => exact h.set hrest.2
  | txStmt | txFail => exact h.set (hrest _)
  | commit => exact h.log hrest.1 hrest.2.1
  | commitFail => exact h.set hrest.2.2
  | rollback => exact h.set hrest
  | ret => exact h.log (hrest rfl) trivial

theorem Traced.waits {J : Isolation S} (h : Traced A pid w c) (hp : w.procs pid = some p)
    (hwait : Waits P J pid p w w') : Traced A pid w' c := by
  obtain ⟨-, new, htrace, hnew⟩ := hwait.later
  have hown : own pid w'.trace = own pid w.trace := by rw [htrace, own_append hnew]
  refine ⟨hown ▸ h.first, fun q hq ↦ ?_, hown ▸ h.past⟩
  rw [hown]
  exact h.rest q (Option.some.inj (hwait.procs.symm.trans hq) ▸ hp)

/-- **What its program does is what a process does.** -/
theorem obeys_of_reachable (hP : P.Sound)
    (hprog : ∀ c, obeys (A c) (Y.prog c) false [.start c] fun v tx es ↦ tx = false →
      A c es (.ret v)) (hw : Reachable Y w) (hp : w.procs pid = some p) :
    ∃ c, Traced A pid w c := by
  induction hw generalizing p with
  | init => cases hp
  | @step w w' hw hs ih =>
    have hinv := inv_of_reachable hP hw
    rcases hold : w.procs pid with - | q
    · obtain ⟨c, rfl⟩ := hs.of_fresh hold hp
      have hnone : own pid w.trace = [] := by
        refine eq_nil_iff_forall_not_mem.2 fun ev hev ↦ ?_
        obtain ⟨d, hd⟩ := mem_own.1 hev
        exact hinv.started _ hd pid rfl hold
      have hown : own pid ((w.log (some pid) (.start c) w.db).set pid
          (.run (Y.prog c) none)).trace = [.start c] := by
        rw [World.trace_set, World.trace_log, own_cons_self, hnone]
      refine ⟨c, by rw [hown]; rfl, fun q hq ↦ ?_, fun ev es hes ↦ ?_⟩
      · rw [World.procs_set_self] at hq
        rw [hown]
        exact Option.some.inj hq ▸ hprog c
      · rw [hown] at hes
        rcases suffix_cons_iff.1 hes with heq | hes
        · exact .inl (cons.inj heq).2
        · simp at hes
    · obtain ⟨c, hc⟩ := ih hold
      rcases hinv.acts_or_waits hP (J := P.iso) (fun h ↦ h) hs
        (fun d henv _ _ _ _ ↦ P.agree_env henv) hold with hact | hwait
      · exact ⟨c, hc.acts hold hact⟩
      · exact ⟨c, hc.waits hold hwait⟩

end Spec

end Relational
