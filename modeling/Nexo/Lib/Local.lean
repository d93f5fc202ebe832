import Nexo.Lib.Logic

/-!
# One process among others

The logic of `Nexo.Lib.Logic` speaks about the history, and a transaction that is rolled back leaves
no trace there. To say what such a transaction has seen, one has to follow the process itself. A
step of the system is a step of that process (`Acts`), or the process waits through it (`Waits`):
the history grows by an entry of somebody else, and what the process holds stays as it is.

## Knowing more than the specification

How much "as it is" means is for a second isolation `J` to say. It may protect more than the one of
the specification, as long as the acts of the outside respect it *in the run at hand* (`Calm`): an
assumption about runs, where `Spec.agree_env` asks for one about every act.

## Transactions

`J.runs E Q p d ks` is the verdict on a transaction with program `p` that sees the tables `d` and
holds `ks`, if it is alone from here on: `E` must hold where it commits or rolls back. `Fits` is
what is known of a transaction somewhere on its way. It survives the waiting (`Fits.agree`) and the
statements of the transaction itself (`Fits.stmt`, `Fits.fail`).
-/

namespace Relational

variable {S : Signature} {Y : System S} {α β : Type}

/-! ### Acting and waiting -/

/-- **What a process does next**, and the world it leads to. -/
inductive Acts (w : World Y) (pid : ℕ) : Proc Y → World Y → Prop where
  | ext {e : S.Ext} {k : S.ExtRes e → Program S Y.Val} (r : S.ExtRes e) :
      Acts w pid (.run (.call (.ext e) k) none)
        ((w.log (some pid) (.ext e r) w.db).set pid (.run (k r) none))
  | stmt {s : S.Stmt} {k : S.Res s → Program S Y.Val} :
      Acts w pid (.run (.call (.stmt s) k) none)
        ((w.log (some pid) (.stmt s (S.exec s w.db).1) (S.exec s w.db).2).set pid
          (.run (k (S.exec s w.db).1) none))
  | stmtFail {s : S.Stmt} {k : S.Res s → Program S Y.Val} :
      Acts w pid (.run (.call (.stmt s) k) none)
        ((w.log (some pid) (.stmt s (S.failed s)) w.db).set pid (.run (k (S.failed s)) none))
  | begin {k : Bool → Program S Y.Val} :
      Acts w pid (.run (.call .begin k) none) (w.set pid (.run (k true) (some ⟨[], []⟩)))
  | beginFail {k : Bool → Program S Y.Val} :
      Acts w pid (.run (.call .begin k) none) (w.set pid (.run (k false) none))
  | txStmt {s : S.Stmt} {k : S.Res s → Program S Y.Val} {tx : Tx S} :
      Acts w pid (.run (.call (.stmt s) k) (some tx))
        (w.set pid (.run (k (S.exec s (S.run tx.done w.db)).1)
          (some ⟨tx.done ++ [s], S.locks s ++ tx.held⟩)))
  | txFail {s : S.Stmt} {k : S.Res s → Program S Y.Val} {tx : Tx S} :
      Acts w pid (.run (.call (.stmt s) k) (some tx)) (w.set pid (.run (k (S.failed s)) (some tx)))
  | commit {k : Bool → Program S Y.Val} {tx : Tx S} :
      Acts w pid (.run (.call .commit k) (some tx))
        ((w.log (some pid) .commit (S.run tx.done w.db)).set pid (.run (k true) none))
  | commitFail {k : Bool → Program S Y.Val} {tx : Tx S} :
      Acts w pid (.run (.call .commit k) (some tx)) (w.set pid (.run (k false) none))
  | rollback {k : Unit → Program S Y.Val} {tx : Tx S} :
      Acts w pid (.run (.call .rollback k) (some tx)) (w.set pid (.run (k ()) none))
  | ret {v : Y.Val} :
      Acts w pid (.run (.ret v) none) ((w.log (some pid) (.ret v) w.db).set pid .halted)

namespace Acts

variable {w w' : World Y} {pid : ℕ}

/-- A statement outside a transaction runs or fails. -/
theorem of_stmt {s : S.Stmt} {k : S.Res s → Program S Y.Val}
    (h : Acts w pid (.run (.call (.stmt s) k) none) w') :
    ∃ r d, (r = (S.exec s w.db).1 ∧ d = (S.exec s w.db).2 ∨ r = S.failed s ∧ d = w.db) ∧
      w' = (w.log (some pid) (.stmt s r) d).set pid (.run (k r) none) := by
  cases h with
  | stmt => exact ⟨_, _, .inl ⟨rfl, rfl⟩, rfl⟩
  | stmtFail => exact ⟨_, _, .inr ⟨rfl, rfl⟩, rfl⟩

theorem of_ext {e : S.Ext} {k : S.ExtRes e → Program S Y.Val}
    (h : Acts w pid (.run (.call (.ext e) k) none) w') :
    ∃ r, w' = (w.log (some pid) (.ext e r) w.db).set pid (.run (k r) none) := by
  cases h with
  | ext r => exact ⟨r, rfl⟩

theorem of_begin {k : Bool → Program S Y.Val} (h : Acts w pid (.run (.call .begin k) none) w') :
    w' = w.set pid (.run (k true) (some ⟨[], []⟩)) ∨ w' = w.set pid (.run (k false) none) := by
  cases h with
  | begin => exact .inl rfl
  | beginFail => exact .inr rfl

theorem of_ret {v : Y.Val} (h : Acts w pid (.run (.ret v) none) w') :
    w' = (w.log (some pid) (.ret v) w.db).set pid .halted := by
  cases h with
  | ret => rfl

end Acts

/-- The outside leaves alone what `J` says is protected by the keys held. -/
def Calm (J : Isolation S) (w w' : World Y) : Prop :=
  ∀ d, Y.env w.db d → w' = w.log none .env d →
    ∀ pid p, w.procs pid = some p → J.Agree p.held w.db d

/-- A process waits while the world moves on. -/
structure Waits (P : Spec Y) (J : Isolation S) (pid : ℕ) (p : Proc Y) (w w' : World Y) :
    Prop where
  procs : w'.procs pid = some p
  later : P.Later pid w.trace w'.trace
  agree : J.Agree p.held w.db w'.db

namespace Spec

variable {P : Spec Y} {J : Isolation S} {pid : ℕ} {w w' : World Y} {p : Proc Y}

/-- A process that a step does not touch, when the step is logged by another. -/
theorem Inv.waits_log {q : ℕ} {p' : Proc Y} {ev : Event Y} {d : S.Db} (h : P.Inv w)
    (hv : P.Valid (⟨some q, ev, d⟩ :: w.trace)) (hp : w.procs pid = some p) (hq : pid ≠ q)
    (hag : J.Agree p.held w.db d) :
    Waits P J pid p w ((w.log (some q) ev d).set q p') where
  procs := by rwa [World.procs_set, Function.update_of_ne hq]
  later := (Later.refl h.valid).cons hv (by simpa using Ne.symm hq)
  agree := hag

/-- The same when the step is not observed. -/
theorem Inv.waits_set {q : ℕ} {p' : Proc Y} (h : P.Inv w) (hp : w.procs pid = some p)
    (hq : pid ≠ q) : Waits P J pid p w (w.set q p') where
  procs := by rwa [World.procs_set, Function.update_of_ne hq]
  later := Later.refl h.valid
  agree := J.agree_refl _ _

theorem eq_or_ne_of_procs {q : ℕ} {p' : Proc Y} (hp : w.procs pid = some p)
    (hq : w.procs q = some p') : (pid = q ∧ p = p') ∨ pid ≠ q := by
  by_cases hpq : pid = q
  · subst hpq
    exact .inl ⟨rfl, Option.some.inj (hp.symm.trans hq)⟩
  · exact .inr hpq

/-- **Every step is one of the process, or it waits.** -/
theorem Inv.acts_or_waits (hP : P.Sound) (hJ : ∀ {ks s}, P.iso.Writes ks s → J.Writes ks s)
    (h : P.Inv w) (hs : Step Y w w') (hcalm : Calm J w w') (hp : w.procs pid = some p) :
    Acts w pid p w' ∨ Waits P J pid p w w' := by
  have hv := (h.step hP hs).valid
  have hrefl : ∀ {q}, P.Later q w.trace w.trace := Later.refl h.valid
  cases hs with
  | @start q c hfresh =>
    refine .inr (h.waits_log hv hp ?_ (J.agree_refl _ _))
    rintro rfl
    rw [hfresh] at hp
    cases hp
  | @env d henv =>
    exact .inr ⟨hp, hrefl.cons hv (by simp), hcalm d henv rfl pid p hp⟩
  | @ext q e k hq r =>
    obtain ⟨rfl, rfl⟩ | hpq := eq_or_ne_of_procs hp hq
    · exact .inl (.ext r)
    · exact .inr (h.waits_log hv hp hpq (J.agree_refl _ _))
  | @stmt q s k hq hlock =>
    obtain ⟨rfl, rfl⟩ | hpq := eq_or_ne_of_procs hp hq
    · exact .inl .stmt
    · have hw := h.good q _ hq
      refine .inr (h.waits_log hv hp hpq (J.agree_write (hJ hw.1) ?_))
      exact fun key hk hk' ↦ hlock pid p hpq hp key hk' hk
  | @stmtFail q s k hq =>
    obtain ⟨rfl, rfl⟩ | hpq := eq_or_ne_of_procs hp hq
    · exact .inl .stmtFail
    · exact .inr (h.waits_log hv hp hpq (J.agree_refl _ _))
  | @begin q k hq =>
    obtain ⟨rfl, rfl⟩ | hpq := eq_or_ne_of_procs hp hq
    · exact .inl .begin
    · exact .inr (h.waits_set hp hpq)
  | @beginFail q k hq =>
    obtain ⟨rfl, rfl⟩ | hpq := eq_or_ne_of_procs hp hq
    · exact .inl .beginFail
    · exact .inr (h.waits_set hp hpq)
  | @txStmt q s k tx hq hlock =>
    obtain ⟨rfl, rfl⟩ | hpq := eq_or_ne_of_procs hp hq
    · exact .inl .txStmt
    · exact .inr (h.waits_set hp hpq)
  | @txFail q s k tx hq =>
    obtain ⟨rfl, rfl⟩ | hpq := eq_or_ne_of_procs hp hq
    · exact .inl .txFail
    · exact .inr (h.waits_set hp hpq)
  | @commit q k tx hq =>
    obtain ⟨rfl, rfl⟩ | hpq := eq_or_ne_of_procs hp hq
    · exact .inl .commit
    · obtain ⟨p₀, hrep, hw⟩ := h.good q _ hq
      obtain ⟨hwrites, -⟩ := hrep.wp (hw w.trace hrefl)
      refine .inr (h.waits_log hv hp hpq ?_)
      exact J.agree_run_of_writes (fun s hs ↦ hJ (hwrites s hs)) (h.disjoint pid q p _ hpq hp hq) _
  | @commitFail q k tx hq =>
    obtain ⟨rfl, rfl⟩ | hpq := eq_or_ne_of_procs hp hq
    · exact .inl .commitFail
    · exact .inr (h.waits_set hp hpq)
  | @rollback q k tx hq =>
    obtain ⟨rfl, rfl⟩ | hpq := eq_or_ne_of_procs hp hq
    · exact .inl .rollback
    · exact .inr (h.waits_set hp hpq)
  | @ret q v hq =>
    obtain ⟨rfl, rfl⟩ | hpq := eq_or_ne_of_procs hp hq
    · exact .inl .ret
    · exact .inr (h.waits_log hv hp hpq (J.agree_refl _ _))

end Spec

/-! ### The verdict on a transaction -/

/-- What must hold where a transaction ends: of the tables it makes, the keys it holds and how the
program goes on. -/
structure Ends (S : Signature) (α : Type) where
  commit : S.Db → List S.Key → (Bool → Program S α) → Prop
  rollback : List S.Key → Program S α → Prop

/-- A part of a transaction that does not end it. -/
def Ends.none : Ends S α := ⟨fun _ _ _ ↦ False, fun _ _ ↦ False⟩

namespace Isolation

variable {J : Isolation S} {p : Program S α}

/-- **The verdict** on the rest of a transaction that sees `v` and holds `ks`. -/
def runs (J : Isolation S) (E : Ends S α) (Q : α → S.Db → List S.Key → Prop) :
    Program S α → S.Db → List S.Key → Prop
  | .ret a, v, ks => Q a v ks
  | .call (.stmt s) k, v, ks => J.Reads (S.locks s ++ ks) s ∧
      (∀ r, J.Adm s v r → runs J E Q (k r) (S.exec s v).2 (S.locks s ++ ks)) ∧
      runs J E Q (k (S.failed s)) v ks
  | .call .commit k, v, ks => E.commit v ks k
  | .call .rollback k, _, ks => E.rollback ks (k ())
  | .call .begin _, _, _ => False
  | .call (.ext _) _, _, _ => False

/-- **Sequencing**, after a part that does not end the transaction, from what is known of it. -/
theorem runs_bind_mono {E : Ends S β} {Q : α → S.Db → List S.Key → Prop}
    {Q' : β → S.Db → List S.Key → Prop} {f : α → Program S β}
    (hf : ∀ a v ks, Q a v ks → J.runs E Q' (f a) v ks) :
    ∀ {v : S.Db} {ks : List S.Key}, J.runs .none Q p v ks → J.runs E Q' (p >>= f) v ks := by
  induction p with
  | ret a => exact fun h ↦ hf _ _ _ h
  | call o k ih =>
    intro v ks h
    cases o with
    | stmt s => exact ⟨h.1, fun r hr ↦ ih r (h.2.1 r hr), ih _ h.2.2⟩
    | commit | rollback | begin | ext => exact h.elim

theorem runs_bind {E : Ends S β} {Q : β → S.Db → List S.Key → Prop} {f : α → Program S β} {v : S.Db}
    {ks : List S.Key} (h : J.runs .none (fun a v ks ↦ J.runs E Q (f a) v ks) p v ks) :
    J.runs E Q (p >>= f) v ks :=
  runs_bind_mono (fun _ _ _ h ↦ h) h

theorem runs_ite {E : Ends S α} {Q : α → S.Db → List S.Key → Prop} {c : Prop} [Decidable c]
    {q : Program S α} {v : S.Db} {ks : List S.Key} (hp : c → J.runs E Q p v ks)
    (hq : ¬ c → J.runs E Q q v ks) : J.runs E Q (if c then p else q) v ks := by
  split
  · next h => exact hp h
  · next h => exact hq h

end Isolation

/-! ### A transaction on its way -/

/-- What is known of a transaction that has come as far as `tx`, on tables `d`: its statements keep
tables in agreement, and on all tables that agree with `d` and of which `K` is known, its rest
deserves the verdict. -/
structure Fits (J : Isolation S) (K : S.Db → Prop) (E : S.Db → Ends S α) (d : S.Db) (tx : Tx S)
    (p : Program S α) : Prop where
  run : ∀ {ks d₁ d₂}, tx.held ⊆ ks → J.Agree ks d₁ d₂ →
    J.Agree ks (S.run tx.done d₁) (S.run tx.done d₂)
  rest : ∀ {d'}, J.Agree tx.held d d' → K d' →
    J.runs (E d') (fun _ _ _ ↦ False) p (S.run tx.done d') tx.held

namespace Fits

variable {J : Isolation S} {K : S.Db → Prop} {E : S.Db → Ends S α} {d d' : S.Db} {tx : Tx S}
  {p : Program S α}

theorem start (h : ∀ d, K d → J.runs (E d) (fun _ _ _ ↦ False) p d []) :
    Fits J K E d ⟨[], []⟩ p where
  run _ h := h
  rest _ hK := h _ hK

/-- The verdict on the tables as they are. -/
theorem now (h : Fits J K E d tx p) (hK : K d) :
    J.runs (E d) (fun _ _ _ ↦ False) p (S.run tx.done d) tx.held :=
  h.rest (J.agree_refl _ _) hK

/-- The process waited. -/
theorem agree (h : Fits J K E d tx p) (hag : J.Agree tx.held d d') :
    Fits J K E d' tx p where
  run := h.run
  rest h' hK := h.rest (J.agree_trans hag h') hK

/-- The transaction ran a statement. Its result is one to reckon with on all tables that agree, for
the statement reads only what its keys protect. -/
theorem stmt {s : S.Stmt} {k : S.Res s → Program S α} (h : Fits J K E d tx (.call (.stmt s) k))
    (hK : K d) :
    Fits J K E d ⟨tx.done ++ [s], S.locks s ++ tx.held⟩ (k (S.exec s (S.run tx.done d)).1) where
  run hks hag := by
    simp only [Signature.run_concat]
    refine J.agree_exec (J.reads_mono hks (h.now hK).1) (h.run ?_ hag)
    exact fun key hkey ↦ hks (List.mem_append_right _ hkey)
  rest {d'} hag hK' := by
    have hold := J.agree_mono (List.subset_append_right _ _) hag
    obtain ⟨hreads, hrest, -⟩ := h.rest hold hK'
    have hadm := J.adm_stable hreads (h.run (List.subset_append_right _ _) hag) (J.adm_exec s _)
    rw [Signature.run_concat]
    exact hrest _ hadm

/-- The transaction failed to run a statement. -/
theorem fail {s : S.Stmt} {k : S.Res s → Program S α} (h : Fits J K E d tx (.call (.stmt s) k)) :
    Fits J K E d tx (k (S.failed s)) where
  run := h.run
  rest hag hK := (h.rest hag hK).2.2

end Fits

end Relational
