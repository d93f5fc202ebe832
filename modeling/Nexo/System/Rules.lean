import Nexo.System.History

/-!
# Proof rules for the calls

The rules by which a program is shown to follow the specification. Outside a transaction the state
of a proof is a `Ctx`: a valid history, the request served, and the effects had so far; it survives
whatever other processes do, and a query or a question leaves it as it is. Inside a transaction the
tables are fixed, and a proof follows what the transaction sees, has run and holds.
-/

namespace Nexo

open Relational Message Errcode List

variable {cfg : Config} {users : Table User String User.keys} {pid : ℕ} {α β σ : Type}

/-- Where a call stands: it serves `req` and has had the effects `ms`. -/
structure Ctx (req : Request) (ms : List Mark) (pid : ℕ) (H : History cfg users) : Prop where
  valid : (spec cfg users).Valid H
  started : Started H pid req
  marks : marks pid H = ms

namespace Ctx

variable {req : Request} {ms : List Mark} {H H' : History cfg users}

section

variable (hc : Ctx req ms pid H) {ev : Event (system cfg users)}
include hc

theorem later (h : (spec cfg users).Later pid H H') :
    Ctx req ms pid H' := by
  refine ⟨h.valid, hc.started.mono h.suffix, ?_⟩
  obtain ⟨-, new, rfl, hnew⟩ := h
  rw [marks_append hnew, hc.marks]

theorem cons {d : Db} (h : Does H pid req ev d) :
    Ctx req ((mark ev).toList ++ ms) pid (⟨some pid, ev, d⟩ :: H) := by
  refine ⟨.cons hc.valid (.inr ⟨req, hc.started, h⟩), hc.started.mono (suffix_cons _ _), ?_⟩
  rw [marks_cons_self, hc.marks]

theorem cons_quiet {d : Db} (h : Quiet H ev d) : Ctx req ms pid (⟨some pid, ev, d⟩ :: H) := by
  simpa [mark_of_quiet h] using hc.cons (.quiet h)

theorem inv : Inv cfg (Trace.db H) := inv_of_valid hc.valid

theorem allowed {d : Db} (h : Does H pid req ev d) :
    Allowed H ⟨some pid, ev, d⟩ := .inr ⟨req, hc.started, h⟩

end

end Ctx

/-! ### Outside transactions -/

section Out

variable {req : Request} {ms : List Mark} {H : History cfg users}
  {Q : Post (system cfg users) α}

theorem wp_query {q : Query} {f : Except StoreErr q.Val → Call α} (hc : Ctx req ms pid H)
    (h : ∀ H' r, Ctx req ms pid (⟨some pid, .stmt (.query q) r, Trace.db H'⟩ :: H') → H <:+ H' →
      (r = q.exec (Trace.db H') ∨ r = .error .failed) →
      (spec cfg users).wp pid (f r) .out (⟨some pid, .stmt (.query q) r, Trace.db H'⟩ :: H') Q) :
    (spec cfg users).wp pid (query q >>= f) .out H Q := by
  refine ⟨trivial, fun H' hl ↦ ?_⟩
  have hc' := hc.later hl
  refine ⟨⟨hc'.allowed (.quiet (.query q)), ?_⟩, hc'.allowed (.quiet (.queryFailed q)), ?_⟩
  · exact h H' _ (hc'.cons_quiet (.query q)) hl.suffix (.inl rfl)
  · exact h H' _ (hc'.cons_quiet (.queryFailed q)) hl.suffix (.inr rfl)

/-- What a query found, if it found anything. -/
theorem exec_of_ok {q : Query} {d : Db} {a : q.Val}
    (h : Except.ok a = q.exec d ∨ Except.ok a = .error StoreErr.failed) : q.exec d = .ok a := by
  rcases h with h | h
  · exact h.symm
  · cases h

/-- A single statement that writes is a transaction of its own. -/
theorem wp_update {u : Update} {f : Except StoreErr u.Val → Call α}
    (hw : u.touches ⊆ Stmt.locks (.update u)) (hc : Ctx req ms pid H)
    (hdoes : ∀ H', Ctx req ms pid H' → H <:+ H' →
      Does H' pid req (.stmt (.update u) (u.exec (Trace.db H')).1) (u.exec (Trace.db H')).2)
    (h : ∀ H' r d, u.exec (Trace.db H') = (r, d) →
      Ctx req ((mark (.stmt (.update u) r : Event (system cfg users))).toList ++ ms) pid
        (⟨some pid, .stmt (.update u) r, d⟩ :: H') →
      H <:+ ⟨some pid, .stmt (.update u) r, d⟩ :: H' →
      (spec cfg users).wp pid (f r) .out (⟨some pid, .stmt (.update u) r, d⟩ :: H') Q)
    (hfail : ∀ H', Ctx req ms pid H' → (spec cfg users).wp pid (f (.error .failed)) .out H' Q) :
    (spec cfg users).wp pid (update u >>= f) .out H Q := by
  refine ⟨hw, fun H' hl ↦ ?_⟩
  have hc' := hc.later hl
  have hd := hdoes H' hc' hl.suffix
  refine ⟨⟨hc'.allowed hd, ?_⟩, hc'.allowed (.quiet (.updateFailed u)), ?_⟩
  · exact h H' _ _ rfl (hc'.cons hd) (hl.suffix.trans (suffix_cons _ _))
  · exact hfail _ (hc'.cons_quiet (.updateFailed u))

theorem wp_question {e : Ext} {f : e.Res → Call α} (he : e.isQuestion) (hc : Ctx req ms pid H)
    (h : ∀ H' r, Ctx req ms pid (⟨some pid, .ext e r, Trace.db H'⟩ :: H') →
      H <:+ ⟨some pid, .ext e r, Trace.db H'⟩ :: H' →
      (spec cfg users).wp pid (f r) .out (⟨some pid, .ext e r, Trace.db H'⟩ :: H') Q) :
    (spec cfg users).wp pid (ext e >>= f) .out H Q := by
  intro H' hl r
  have hc' := hc.later hl
  exact ⟨hc'.allowed (.quiet (.question he r)), h H' r (hc'.cons_quiet (.question he r))
    (hl.suffix.trans (suffix_cons _ _))⟩

/-- An event handed to the outside: it must be due, and it leaves its mark. -/
theorem wp_announce {e : Ext} {k : Mark} {f : e.Res → Call α}
    (hk : ∀ r, mark (.ext e r : Event (system cfg users)) = some k) (hc : Ctx req ms pid H)
    (hdoes : ∀ H' r, Ctx req ms pid H' → H <:+ H' → Does H' pid req (.ext e r) (Trace.db H'))
    (h : ∀ H' r, Ctx req (k :: ms) pid (⟨some pid, .ext e r, Trace.db H'⟩ :: H') →
      H <:+ ⟨some pid, .ext e r, Trace.db H'⟩ :: H' →
      (spec cfg users).wp pid (f r) .out (⟨some pid, .ext e r, Trace.db H'⟩ :: H') Q) :
    (spec cfg users).wp pid (ext e >>= f) .out H Q := by
  intro H' hl r
  have hc' := hc.later hl
  have hd := hdoes H' r hc' hl.suffix
  refine ⟨hc'.allowed hd, h H' r ?_ (hl.suffix.trans (suffix_cons _ _))⟩
  simpa [hk r] using hc'.cons hd

/-- The end of a call: what it returns must be due from now on. -/
theorem returns {v : Response} (hc : Ctx req ms pid H)
    (h : ∀ H', Ctx req ms pid H' → H <:+ H' → Does H' pid req (.ret v) (Trace.db H')) :
    (spec cfg users).Returns pid v .out H :=
  ⟨rfl, fun H' hl ↦ (hc.later hl).allowed (h H' (hc.later hl) hl.suffix)⟩

end Out

/-! ### Transactions -/

section Tx

variable {req : Request} {ms : List Mark} {H : History cfg users}

/-- What the callback of a transaction must establish: the continuation `Q` of a rollback, or of a
commit that succeeds and one that fails. -/
def TxPost (pid : ℕ) (H : History cfg users) (Q : Post (system cfg users) (Except Err Unit × σ)) :
    Post (system cfg users) (Except Err Unit × σ) := fun r m H' ↦
  H' = H ∧ ∃ v done held, m = .tx v done held ∧
    match r with
    | (.error err, vars) => Q (.error err, vars) .out H
    | (.ok (), vars) => (∀ s ∈ done, Writes held s) ∧ Allowed H ⟨some pid, .commit, v⟩ ∧
        Q (.ok (), vars) .out (⟨some pid, .commit, v⟩ :: H) ∧
        Q (.error (.store .failed), vars) .out H

theorem wp_withTx {init : σ} {fn : Call (Except Err Unit × σ)}
    {Q : Post (system cfg users) (Except Err Unit × σ)} (hc : Ctx req ms pid H)
    (hbegin : ∀ H', Ctx req ms pid H' → H <:+ H' → Q (.error (.store .failed), init) .out H')
    (hbody : ∀ H', Ctx req ms pid H' → H <:+ H' →
      (spec cfg users).wp pid fn (.tx (Trace.db H') [] []) H' (TxPost pid H' Q)) :
    (spec cfg users).wp pid (withTx init fn) .out H Q := by
  intro H' hl
  have hc' := hc.later hl
  refine ⟨?_, hbegin H' hc' hl.suffix⟩
  change (spec cfg users).wp pid (fn >>= _) _ H' Q
  refine Spec.wp_bind.2 (Spec.wp_mono ?_ (hbody H' hc' hl.suffix))
  rintro ⟨r, vars⟩ m H'' ⟨rfl, v, done, held, rfl, hpost⟩
  cases r with
  | error err => exact hpost
  | ok u => exact ⟨hpost.1, hpost.2.1, hpost.2.2.1, hpost.2.2.2⟩

variable {v : Db} {done : List Stmt} {held : List Key} {Q : Post (system cfg users) α}
  {P : α → Prop}

theorem wp_query_tx {q : Query} {f : Except StoreErr q.Val → Call α}
    (hr : Reads (Stmt.locks (.query q) ++ held) (.query q))
    (h : ∀ r, Adm (.query q) v r → (spec cfg users).wp pid (f r)
      (.tx v (done ++ [.query q]) (Stmt.locks (.query q) ++ held)) H Q)
    (hfail : (spec cfg users).wp pid (f (.error .failed)) (.tx v done held) H Q) :
    (spec cfg users).wp pid (query q >>= f) (.tx v done held) H Q :=
  ⟨hr, h, hfail⟩

theorem wp_update_tx {u : Update} {f : Except StoreErr u.Val → Call α} {r : Except StoreErr u.Val}
    {v' : Db} (hr : u.needs ⊆ Stmt.locks (.update u) ++ held) (hexec : u.exec v = (r, v'))
    (h : (spec cfg users).wp pid (f r)
      (.tx v' (done ++ [.update u]) (Stmt.locks (.update u) ++ held)) H Q)
    (hfail : (spec cfg users).wp pid (f (.error .failed)) (.tx v done held) H Q) :
    (spec cfg users).wp pid (update u >>= f) (.tx v done held) H Q := by
  refine ⟨hr, fun r' hadm ↦ ?_, hfail⟩
  have hr' : r' = (u.exec v).1 := hadm
  have hv' : (Stmt.exec (.update u) v).2 = v' := congrArg Prod.snd hexec
  rw [hr', hexec]
  exact hv' ▸ h

/-- The same for an update whose result is the result of the program. -/
theorem wp_update_tx_last {u : Update} {Q : Post (system cfg users) (Except StoreErr u.Val)}
    {r : Except StoreErr u.Val} {v' : Db} (hr : u.needs ⊆ Stmt.locks (.update u) ++ held)
    (hexec : u.exec v = (r, v'))
    (h : Q r (.tx v' (done ++ [.update u]) (Stmt.locks (.update u) ++ held)) H)
    (hfail : Q (.error .failed) (.tx v done held) H) :
    (spec cfg users).wp pid (update u) (.tx v done held) H Q :=
  wp_update_tx (f := Prog.ret) hr hexec h hfail

/-- A part of a transaction that only reads: the tables it sees stay as they are. -/
def ReadTx (v : Db) (done : List Stmt) (held : List Key) (H : History cfg users) (P : α → Prop) :
    Post (system cfg users) α := fun a m H' ↦
  H' = H ∧ (∃ qs : List Query, m = .tx v (done ++ qs.map .query) held) ∧ P a

theorem ReadTx.intro {a : α} (ha : P a) (qs : List Query) :
    ReadTx v done held H P a (.tx v (done ++ qs.map .query) held) H :=
  ⟨rfl, ⟨qs, rfl⟩, ha⟩

/-- Nothing was read. -/
theorem ReadTx.none {a : α} (ha : P a) :
    ReadTx v done held H P a (.tx v done held) H :=
  ⟨rfl, ⟨[], by simp⟩, ha⟩

theorem wp_bind_readTx {p : Call β} {f : β → Call α} {P : β → Prop}
    (hp : (spec cfg users).wp pid p (.tx v done held) H (ReadTx v done held H P))
    (hf : ∀ a qs, P a →
      (spec cfg users).wp pid (f a) (.tx v (done ++ map .query qs) held) H Q) :
    (spec cfg users).wp pid (p >>= f) (.tx v done held) H Q := by
  refine Spec.wp_bind.2 (Spec.wp_mono ?_ hp)
  rintro a m H' ⟨rfl, ⟨qs, rfl⟩, ha⟩
  exact hf a qs ha

/-- Reading after reading. -/
theorem wp_append_readTx {p : Call α} (qs : List Query)
    (h : (spec cfg users).wp pid p (.tx v (done ++ qs.map .query) held) H
      (ReadTx v (done ++ qs.map .query) held H P)) :
    (spec cfg users).wp pid p (.tx v (done ++ qs.map .query) held) H (ReadTx v done held H P) := by
  refine Spec.wp_mono ?_ h
  rintro a m H' ⟨rfl, ⟨qs', rfl⟩, ha⟩
  exact ⟨rfl, ⟨qs ++ qs', by simp⟩, ha⟩

end Tx

end Nexo
