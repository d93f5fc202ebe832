import Nexo.Lib.Txn
import Mathlib.Data.List.Nodup
import Mathlib.Data.List.Induction

/-!
# A rely-guarantee logic for transactional programs

The specification of a system is a predicate `Allowed H e`: after history `H`, may entry `e` come
next? A history built from allowed entries is `Valid`. The theorem of this module,
`valid_of_reachable`, says that every interleaving produces a valid history, provided each program
*taken by itself* passes the weakest precondition `wp`. What the other processes do while it runs
enters only as `Later`: the history may have grown, validly, by entries that are not its own.

## Transactions are reasoned about as if they ran alone

Inside a transaction `wp` evaluates every statement against **one fixed committed state**, the state
at the moment of the commit, although the statements ran one by one among the steps of others. This
is what locking buys, and the argument is made once, here. An `Isolation` names the part of the
tables a set of keys protects (`Agree`), and asks of each statement that its result depends on
protected parts only (`Reads`, checked when it runs) and that it changes only parts protected by
what its transaction holds at the end (`Writes`, checked at commit). Then the run so far can be
*replayed* on the tables as they are now (`Replay`, `Replay.stable`), and the verdict of `wp` for
the present state applies (`Replay.wp`).

A result may depend on more than the protected part: `Adm s d r` says which results of `s` the
program has to reckon with when the tables are `d` at commit, and it is for the instance to choose
it large enough to be stable (`adm_stable`).
-/

namespace Relational

open List Function

variable {S : Signature} {Y : System S} {α β : Type}

/-- What the locks of a store protect. -/
structure Isolation (S : Signature) where
  /-- The tables agree on the part protected by the keys. -/
  Agree : List S.Key → S.Db → S.Db → Prop
  /-- A result the statement may have had, for all one can tell from the protected part. -/
  Adm : (s : S.Stmt) → S.Db → S.Res s → Prop
  /-- Holding these keys, the statement's result and effect are settled. -/
  Reads : List S.Key → S.Stmt → Prop
  /-- Holding these keys, the statement may change the committed tables. -/
  Writes : List S.Key → S.Stmt → Prop
  agree_refl : ∀ ks d, Agree ks d d
  agree_trans : ∀ {ks d d' d''}, Agree ks d d' → Agree ks d' d'' → Agree ks d d''
  agree_mono : ∀ {ks ks' d d'}, ks ⊆ ks' → Agree ks' d d' → Agree ks d d'
  reads_mono : ∀ {ks ks' s}, ks ⊆ ks' → Reads ks s → Reads ks' s
  adm_exec : ∀ s d, Adm s d (S.exec s d).1
  adm_stable : ∀ {ks s d d' r}, Reads ks s → Agree ks d d' → Adm s d r → Adm s d' r
  agree_exec : ∀ {ks s d d'}, Reads ks s → Agree ks d d' → Agree ks (S.exec s d).2 (S.exec s d').2
  agree_write : ∀ {ks ks' s d}, Writes ks' s → ks.Disjoint ks' → Agree ks d (S.exec s d).2

/-- Statements that a set of keys entitles to write disturb no disjoint set of keys. -/
theorem Isolation.agree_run_of_writes (J : Isolation S) {ks ks' : List S.Key} {ss : List S.Stmt}
    (hw : ∀ s ∈ ss, J.Writes ks' s) (hd : ks.Disjoint ks') (d : S.Db) :
    J.Agree ks d (S.run ss d) := by
  induction ss using reverseRecOn with
  | nil => exact J.agree_refl ks d
  | append_singleton ss s ih =>
    rw [Signature.run_concat]
    exact J.agree_trans (ih fun t ht ↦ hw t (by simp [ht])) (J.agree_write (hw s (by simp)) hd)

/-- What a system is specified by: the lock discipline and the entries a history allows. -/
structure Spec (Y : System S) where
  iso : Isolation S
  Allowed : Trace Y → Entry Y → Prop
  /-- The environment disturbs nothing that a lock protects. -/
  agree_env : ∀ {ks d d'}, Y.env d d' → iso.Agree ks d d'

/-- A history made of allowed entries. -/
inductive Spec.Valid (P : Spec Y) : Trace Y → Prop where
  | nil : P.Valid []
  | cons {H : Trace Y} {e : Entry Y} (hH : P.Valid H) (he : P.Allowed H e) : P.Valid (e :: H)

namespace Spec

variable {P : Spec Y} {pid : ℕ} {H H' : Trace Y}

theorem Valid.tail {e : Entry Y} (h : P.Valid (e :: H)) : P.Valid H := by
  cases h with
  | cons hH _ => exact hH

theorem Valid.head {e : Entry Y} (h : P.Valid (e :: H)) : P.Allowed H e := by
  cases h with
  | cons _ he => exact he

/-- Every earlier history of a valid one is valid. -/
theorem Valid.of_suffix (h : P.Valid H') (hs : H <:+ H') : P.Valid H := by
  obtain ⟨new, rfl⟩ := hs
  induction new with
  | nil => exact h
  | cons e new ih => exact ih h.tail

/-- The history grew, validly, by entries of other processes. -/
def Later (P : Spec Y) (pid : ℕ) (H H' : Trace Y) : Prop :=
  P.Valid H' ∧ ∃ new, H' = new ++ H ∧ ∀ e ∈ new, e.who ≠ some pid

theorem Later.valid (h : P.Later pid H H') : P.Valid H' := h.1

theorem Later.suffix (h : P.Later pid H H') : H <:+ H' := by
  obtain ⟨-, new, rfl, -⟩ := h
  exact suffix_append new H

theorem Later.refl (h : P.Valid H) : P.Later pid H H := ⟨h, [], rfl, by simp⟩

theorem Later.trans {H'' : Trace Y} (h : P.Later pid H H') (h' : P.Later pid H' H'') :
    P.Later pid H H'' := by
  obtain ⟨-, new, rfl, hnew⟩ := h
  obtain ⟨hv, new', rfl, hnew'⟩ := h'
  refine ⟨hv, new' ++ new, by simp, fun e he ↦ ?_⟩
  rcases mem_append.1 he with he | he
  · exact hnew' e he
  · exact hnew e he

/-- One more entry of another process. -/
theorem Later.cons (h : P.Later pid H H') {e : Entry Y} (hv : P.Valid (e :: H'))
    (he : e.who ≠ some pid) : P.Later pid H (e :: H') :=
  h.trans ⟨hv, [e], rfl, by simpa using he⟩

end Spec

/-! ### Weakest preconditions -/

/-- Outside a transaction, or inside one with what it sees, has run and holds. -/
inductive Mode (S : Signature) where
  | out
  | tx (view : S.Db) (done : List S.Stmt) (held : List S.Key)

/-- A postcondition: of the value returned, the mode and the history. -/
abbrev Post (Y : System S) (α : Type) := α → Mode S → Trace Y → Prop

/-- **The weakest precondition** of a program run by process `pid`. Before every operation outside
a transaction the history may have grown; inside a transaction it stands still. Operations in the
wrong mode are not provable. -/
def Spec.wp (P : Spec Y) (pid : ℕ) : Program S α → Mode S → Trace Y → Post Y α → Prop
  | .ret a, m, H, Q => Q a m H
  | .call (.ext e) k, .out, H, Q => ∀ H', P.Later pid H H' → ∀ r,
      P.Allowed H' ⟨some pid, .ext e r, Trace.db H'⟩ ∧
        wp P pid (k r) .out (⟨some pid, .ext e r, Trace.db H'⟩ :: H') Q
  | .call (.stmt s) k, .out, H, Q => P.iso.Writes (S.locks s) s ∧ ∀ H', P.Later pid H H' →
      (P.Allowed H' ⟨some pid, .stmt s (S.exec s (Trace.db H')).1, (S.exec s (Trace.db H')).2⟩ ∧
        wp P pid (k (S.exec s (Trace.db H')).1) .out
          (⟨some pid, .stmt s (S.exec s (Trace.db H')).1, (S.exec s (Trace.db H')).2⟩ :: H') Q) ∧
      (P.Allowed H' ⟨some pid, .stmt s (S.failed s), Trace.db H'⟩ ∧
        wp P pid (k (S.failed s)) .out (⟨some pid, .stmt s (S.failed s), Trace.db H'⟩ :: H') Q)
  | .call .begin k, .out, H, Q => ∀ H', P.Later pid H H' →
      wp P pid (k true) (.tx (Trace.db H') [] []) H' Q ∧ wp P pid (k false) .out H' Q
  | .call (.stmt s) k, .tx v done held, H, Q => P.iso.Reads (S.locks s ++ held) s ∧
      (∀ r, P.iso.Adm s v r →
        wp P pid (k r) (.tx (S.exec s v).2 (done ++ [s]) (S.locks s ++ held)) H Q) ∧
      wp P pid (k (S.failed s)) (.tx v done held) H Q
  | .call .commit k, .tx v done held, H, Q => (∀ s ∈ done, P.iso.Writes held s) ∧
      P.Allowed H ⟨some pid, .commit, v⟩ ∧
      wp P pid (k true) .out (⟨some pid, .commit, v⟩ :: H) Q ∧ wp P pid (k false) .out H Q
  | .call .rollback k, .tx _ _ _, H, Q => wp P pid (k ()) .out H Q
  | _, _, _, _ => False

namespace Spec

variable {P : Spec Y} {pid : ℕ} {Q : Post Y α} {p : Program S α} {H : Trace Y} {p₀ : Program S α}
  {w : World Y}

theorem wp_mono {Q' : Post Y α} (h : ∀ a m H, Q a m H → Q' a m H) :
    ∀ {m : Mode S} {H : Trace Y}, P.wp pid p m H Q → P.wp pid p m H Q' := by
  induction p with
  | ret a => exact fun hw ↦ h _ _ _ hw
  | call o k ih =>
    intro m H hw
    cases o <;> cases m <;> simp only [wp] at hw ⊢
    · exact ⟨hw.1, fun H' hH' ↦ ⟨⟨(hw.2 H' hH').1.1, ih _ (hw.2 H' hH').1.2⟩,
        (hw.2 H' hH').2.1, ih _ (hw.2 H' hH').2.2⟩⟩
    · exact ⟨hw.1, fun r hr ↦ ih _ (hw.2.1 r hr), ih _ hw.2.2⟩
    · exact fun H' hH' ↦ ⟨ih _ (hw H' hH').1, ih _ (hw H' hH').2⟩
    · exact ⟨hw.1, hw.2.1, ih _ hw.2.2.1, ih _ hw.2.2.2⟩
    · exact ih _ hw
    · exact fun H' hH' r ↦ ⟨(hw H' hH' r).1, ih _ (hw H' hH' r).2⟩

/-- **Sequencing.** -/
theorem wp_bind {f : α → Program S β} {Q : Post Y β} :
    ∀ {m : Mode S} {H : Trace Y},
      P.wp pid (p >>= f) m H Q ↔ P.wp pid p m H fun a m' H' ↦ P.wp pid (f a) m' H' Q := by
  induction p with
  | ret a => exact Iff.rfl
  | call o k ih =>
    intro m H
    cases o with
    | stmt s =>
      have ih' : ∀ (r : S.Res s) {m H}, _ := ih
      cases m <;> simp only [Prog.call_bind, wp, ih']
    | begin | commit =>
      have ih' : ∀ (r : Bool) {m H}, _ := ih
      cases m <;> simp only [Prog.call_bind, wp, ih']
    | rollback =>
      have ih' : ∀ (r : Unit) {m H}, _ := ih
      cases m <;> simp only [Prog.call_bind, wp, ih']
    | ext e =>
      have ih' : ∀ (r : S.ExtRes e) {m H}, _ := ih
      cases m <;> simp only [Prog.call_bind, wp, ih']

theorem wp_ite {c : Prop} [Decidable c] {q : Program S α} {m : Mode S} (hp : c → P.wp pid p m H Q)
    (hq : ¬ c → P.wp pid q m H Q) :
    P.wp pid (if c then p else q) m H Q := by
  split
  · next h => exact hp h
  · next h => exact hq h

/-- A postcondition that survives the steps of others. -/
def Stable (P : Spec Y) (pid : ℕ) (Q : Post Y α) : Prop :=
  ∀ a H H', P.Later pid H H' → Q a .out H → Q a .out H'

/-- Outside a transaction the verdict survives the steps of others. -/
theorem wp_later (hQ : P.Stable pid Q) {H' : Trace Y} (hH : P.Later pid H H')
    (h : P.wp pid p .out H Q) : P.wp pid p .out H' Q := by
  cases p with
  | ret a => exact hQ a H H' hH h
  | call o k =>
    cases o <;> simp only [wp] at h ⊢
    · exact ⟨h.1, fun H'' hH'' ↦ h.2 H'' (hH.trans hH'')⟩
    · exact fun H'' hH'' ↦ h H'' (hH.trans hH'')
    · exact fun H'' hH'' r ↦ h H'' (hH.trans hH'') r

/-! ### Replaying a transaction -/

/-- `Replay P p₀ d tx p`: run alone on tables `d`, program `p₀` can have run the statements of `tx`,
taken its keys, and be about to run `p`. -/
inductive Replay (P : Spec Y) (p₀ : Program S α) (d : S.Db) :
    Tx S → Program S α → Prop where
  | start : Replay P p₀ d ⟨[], []⟩ p₀
  | stmt {tx : Tx S} {s : S.Stmt} {k : S.Res s → Program S α}
      (h : Replay P p₀ d tx (.call (.stmt s) k)) (hr : P.iso.Reads (S.locks s ++ tx.held) s)
      {r : S.Res s} (hadm : P.iso.Adm s (S.run tx.done d) r) :
      Replay P p₀ d ⟨tx.done ++ [s], S.locks s ++ tx.held⟩ (k r)
  | fail {tx : Tx S} {s : S.Stmt} {k : S.Res s → Program S α}
      (h : Replay P p₀ d tx (.call (.stmt s) k)) : Replay P p₀ d tx (k (S.failed s))

/-- What is protected stays in agreement through the statements replayed. -/
theorem Replay.agree_run {d d' : S.Db} {tx : Tx S} (h : Replay P p₀ d tx p) {ks : List S.Key}
    (hks : tx.held ⊆ ks) (hag : P.iso.Agree ks d d') :
    P.iso.Agree ks (S.run tx.done d) (S.run tx.done d') := by
  induction h with
  | start => exact hag
  | stmt _ hr _ ih =>
    simp only [Signature.run_concat]
    exact P.iso.agree_exec (P.iso.reads_mono hks hr)
      (ih fun _ hk ↦ hks (mem_append_right _ hk))
  | fail _ ih => exact ih hks

/-- **A replay survives whatever leaves its protected part alone.** -/
theorem Replay.stable {d d' : S.Db} {tx : Tx S} (h : Replay P p₀ d tx p)
    (hag : P.iso.Agree tx.held d d') : Replay P p₀ d' tx p := by
  induction h with
  | start => exact .start
  | stmt h hr hadm ih =>
    have hold := P.iso.agree_mono (subset_append_right _ _) hag
    exact .stmt (ih hold) hr (P.iso.adm_stable hr
      (h.agree_run (subset_append_right _ _) hag) hadm)
  | fail _ ih => exact .fail (ih hag)

/-- The verdict on the whole transaction passes to the point the replay has reached. -/
theorem Replay.wp {tx : Tx S} (h : Replay P p₀ (Trace.db H) tx p)
    (hw : P.wp pid p₀ (.tx (Trace.db H) [] []) H Q) :
    P.wp pid p (.tx (S.run tx.done (Trace.db H)) tx.done tx.held) H Q := by
  induction h with
  | start => exact hw
  | stmt _ _ hadm ih => simpa using ih.2.1 _ hadm
  | fail _ ih => exact ih.2.2

/-! ### Adequacy -/

/-- The postcondition of a whole call: the return may be observed, now and later. -/
def Returns (P : Spec Y) (pid : ℕ) : Post Y Y.Val := fun v m H ↦
  m = .out ∧ ∀ H', P.Later pid H H' → P.Allowed H' ⟨some pid, .ret v, Trace.db H'⟩

theorem stable_returns : P.Stable pid (P.Returns pid) :=
  fun _ _ _ hH h ↦ ⟨rfl, fun H'' hH'' ↦ h.2 H'' (hH.trans hH'')⟩

/-- What is known of one process: outside a transaction, its `wp`; inside, the `wp` of the whole
transaction from wherever it may be committed, and the replay up to here. -/
def Good (P : Spec Y) (pid : ℕ) (H : Trace Y) : Proc Y → Prop
  | .run p none => P.wp pid p .out H (P.Returns pid)
  | .run p (some tx) => ∃ p₀, Replay P p₀ (Trace.db H) tx p ∧
      ∀ H', P.Later pid H H' → P.wp pid p₀ (.tx (Trace.db H') [] []) H' (P.Returns pid)
  | .halted => True

/-- The invariant of the adequacy proof. -/
structure Inv (P : Spec Y) (w : World Y) : Prop where
  valid : P.Valid w.trace
  good : ∀ pid p, w.procs pid = some p → P.Good pid w.trace p
  disjoint : ∀ pid qid p q, pid ≠ qid → w.procs pid = some p → w.procs qid = some q →
    p.held.Disjoint q.held
  started : ∀ e ∈ w.trace, ∀ pid, e.who = some pid → w.procs pid ≠ none

/-- A process stays good while others add to the history what its keys do not protect. -/
theorem Good.later {H' : Trace Y} {p : Proc Y} (h : P.Good pid H p) (hH : P.Later pid H H')
    (hag : P.iso.Agree p.held (Trace.db H) (Trace.db H')) : P.Good pid H' p := by
  match p with
  | .run p none => exact wp_later stable_returns hH h
  | .run p (some tx) =>
    obtain ⟨p₀, hrep, hw⟩ := h
    exact ⟨p₀, hrep.stable hag, fun H'' hH'' ↦ hw H'' (hH.trans hH'')⟩
  | .halted => trivial

/-- The invariant of a world in which one process is set, from the others. -/
theorem inv_set {p : Proc Y} (hvalid : P.Valid w.trace) (hgood : P.Good pid w.trace p)
    (hother : ∀ q r, q ≠ pid → w.procs q = some r → P.Good q w.trace r ∧ p.held.Disjoint r.held)
    (hdisjoint : ∀ a b p q, a ≠ b → w.procs a = some p → w.procs b = some q → p.held.Disjoint q.held)
    (hstarted : ∀ e ∈ w.trace, ∀ q, e.who = some q → q ≠ pid → w.procs q ≠ none) :
    P.Inv (w.set pid p) := by
  refine ⟨hvalid, ?_, ?_, ?_⟩
  · intro q r hr
    by_cases hq : q = pid
    · subst hq
      simp only [World.procs_set, update_self, Option.some.injEq] at hr
      exact hr ▸ hgood
    · rw [World.procs_set, update_of_ne hq] at hr
      exact (hother q r hq hr).1
  · intro a b p' q' hab hp' hq'
    simp only [World.procs_set] at hp' hq'
    by_cases ha : a = pid
    · subst ha
      rw [update_of_ne hab.symm] at hq'
      simp only [update_self, Option.some.injEq] at hp'
      exact hp' ▸ (hother b q' hab.symm hq').2
    · rw [update_of_ne ha] at hp'
      by_cases hb : b = pid
      · subst hb
        simp only [update_self, Option.some.injEq] at hq'
        exact hq' ▸ fun _ hk hk' ↦ (hother a p' ha hp').2 hk' hk
      · rw [update_of_ne hb] at hq'
        exact hdisjoint a b p' q' hab hp' hq'
  · intro e he q hq
    rw [World.procs_set]
    by_cases hqp : q = pid
    · subst hqp
      simp
    · rw [update_of_ne hqp]
      exact hstarted e he q hq hqp

/-- Only the stepping process changes, the others see one more entry. -/
theorem Inv.log_set (h : P.Inv w) {p : Proc Y} {ev : Event Y} {d : S.Db}
    (hallow : P.Allowed w.trace ⟨some pid, ev, d⟩)
    (hgood : P.Good pid (⟨some pid, ev, d⟩ :: w.trace) p) (hheld : p.held = [])
    (hag : ∀ q r, q ≠ pid → w.procs q = some r → P.iso.Agree r.held w.db d) :
    P.Inv ((w.log (some pid) ev d).set pid p) := by
  have hvalid : P.Valid (⟨some pid, ev, d⟩ :: w.trace) := .cons h.valid hallow
  refine inv_set hvalid hgood (fun q r hq hr ↦ ⟨?_, ?_⟩) h.disjoint fun e he q hq hqp ↦ ?_
  · exact (h.good q r hr).later
      ((Later.refl h.valid).cons hvalid (by simpa using fun h ↦ hq h.symm)) (hag q r hq hr)
  · rw [hheld]
    exact disjoint_nil_left _
  · rcases mem_cons.1 he with rfl | he
    · exact absurd (Option.some.inj hq).symm hqp
    · exact h.started e he q hq

/-- Only the stepping process changes, and nobody can see it. -/
theorem Inv.set (h : P.Inv w) {p : Proc Y} (hgood : P.Good pid w.trace p)
    (hheld : ∀ q r, q ≠ pid → w.procs q = some r → p.held.Disjoint r.held) :
    P.Inv (w.set pid p) :=
  inv_set h.valid hgood (fun q r hq hr ↦ ⟨h.good q r hr, hheld q r hq hr⟩) h.disjoint
    fun e he q hq _ ↦ h.started e he q hq

/-- The hypotheses of adequacy: the specification admits every call and every act of the
environment, and every program passes its weakest precondition. -/
structure Sound (P : Spec Y) : Prop where
  start : ∀ {H pid} (c : Y.Call), P.Valid H → (∀ e ∈ H, e.who ≠ some pid) →
    P.Allowed H ⟨some pid, .start c, Trace.db H⟩
  env : ∀ {H d}, P.Valid H → Y.env (Trace.db H) d → P.Allowed H ⟨none, .env, d⟩
  prog : ∀ {H pid} (c : Y.Call), P.Valid (⟨some pid, .start c, Trace.db H⟩ :: H) →
    (∀ e ∈ H, e.who ≠ some pid) →
    P.wp pid (Y.prog c) .out (⟨some pid, .start c, Trace.db H⟩ :: H) (P.Returns pid)

theorem Inv.step (hP : P.Sound) {w' : World Y} (h : P.Inv w) (hs : Step Y w w') :
    P.Inv w' := by
  have hrefl : ∀ {pid}, P.Later pid w.trace w.trace := Later.refl h.valid
  cases hs with
  | @start pid c hfresh =>
    have hnew : ∀ e ∈ w.trace, e.who ≠ some pid := fun e he hw ↦ h.started e he pid hw hfresh
    have hallow := hP.start c h.valid hnew
    exact h.log_set hallow (hP.prog c (.cons h.valid hallow) hnew) rfl
      fun _ r _ _ ↦ P.iso.agree_refl r.held _
  | @env d henv =>
    have hvalid : P.Valid (⟨none, .env, d⟩ :: w.trace) := .cons h.valid (hP.env h.valid henv)
    refine ⟨hvalid, fun q r hr ↦ ?_, h.disjoint, fun e he q hq ↦ ?_⟩
    · exact (h.good q r hr).later ((Later.refl h.valid).cons hvalid (by simp)) (P.agree_env henv)
    · rcases mem_cons.1 he with rfl | he
      · simp at hq
      · exact h.started e he q hq
  | @ext pid e k hp r =>
    have hw := h.good pid _ hp
    obtain ⟨hallow, hrest⟩ := hw w.trace hrefl r
    exact h.log_set hallow hrest rfl fun _ r _ _ ↦ P.iso.agree_refl r.held _
  | @stmt pid s k hp hlock =>
    have hw := h.good pid _ hp
    obtain ⟨hallow, hrest⟩ := (hw.2 w.trace hrefl).1
    refine h.log_set hallow hrest rfl fun q r hq hr ↦ P.iso.agree_write hw.1 ?_
    exact fun k hk hk' ↦ hlock q r hq hr k hk' hk
  | @stmtFail pid s k hp =>
    have hw := h.good pid _ hp
    obtain ⟨hallow, hrest⟩ := (hw.2 w.trace hrefl).2
    exact h.log_set hallow hrest rfl fun _ r _ _ ↦ P.iso.agree_refl r.held _
  | @begin pid k hp =>
    have hw := h.good pid _ hp
    refine h.set ⟨k true, .start, fun H' hH' ↦ (hw H' hH').1⟩ ?_
    exact fun _ _ _ _ ↦ disjoint_nil_left _
  | @beginFail pid k hp =>
    have hw := h.good pid _ hp
    exact h.set (hw w.trace hrefl).2 fun _ _ _ _ ↦ disjoint_nil_left _
  | @txStmt pid s k tx hp hlock =>
    obtain ⟨p₀, hrep, hw⟩ := h.good pid _ hp
    have hcur := hrep.wp (hw w.trace hrefl)
    refine h.set ⟨p₀, .stmt hrep hcur.1 (P.iso.adm_exec s _), hw⟩ fun q r hq hr ↦ ?_
    refine disjoint_append_left.2 ⟨fun k hk hk' ↦ hlock q r hq hr k hk hk', ?_⟩
    exact h.disjoint pid q _ r hq.symm hp hr
  | @txFail pid s k tx hp =>
    obtain ⟨p₀, hrep, hw⟩ := h.good pid _ hp
    refine h.set ⟨p₀, .fail hrep, hw⟩ fun q r hq hr ↦ ?_
    have hdisj := h.disjoint pid q _ r hq.symm hp hr
    exact hdisj
  | @commit pid k tx hp =>
    obtain ⟨p₀, hrep, hw⟩ := h.good pid _ hp
    obtain ⟨hwrites, hallow, hrest, -⟩ := hrep.wp (hw w.trace hrefl)
    refine h.log_set hallow hrest rfl fun q r hq hr ↦ P.iso.agree_run_of_writes hwrites ?_ w.db
    exact h.disjoint q pid r _ hq hr hp
  | @commitFail pid k tx hp =>
    obtain ⟨p₀, hrep, hw⟩ := h.good pid _ hp
    exact h.set (hrep.wp (hw w.trace hrefl)).2.2.2 fun _ _ _ _ ↦ disjoint_nil_left _
  | @rollback pid k tx hp =>
    obtain ⟨p₀, hrep, hw⟩ := h.good pid _ hp
    exact h.set (hrep.wp (hw w.trace hrefl)) fun _ _ _ _ ↦ disjoint_nil_left _
  | @ret pid v hp =>
    have hw := h.good pid _ hp
    exact h.log_set (hw.2 w.trace hrefl) trivial rfl fun _ r _ _ ↦ P.iso.agree_refl r.held _

theorem inv_init : P.Inv (World.init : World Y) where
  valid := .nil
  good := by simp [World.init]
  disjoint := by simp [World.init]
  started := by simp [World.init]

theorem inv_of_reachable (hP : P.Sound) (h : Reachable Y w) : P.Inv w := by
  induction h with
  | init => exact inv_init
  | step _ hs ih => exact ih.step hP hs

/-- **Adequacy.** Every interleaving of every set of calls produces a valid history. -/
theorem valid_of_reachable (hP : P.Sound) (h : Reachable Y w) : P.Valid w.trace :=
  (inv_of_reachable hP h).valid

end Spec

end Relational
