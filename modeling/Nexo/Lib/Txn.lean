import Nexo.Lib.Prog
import Mathlib.Logic.Function.Basic

/-!
# Concurrent programs over a transactional store

The operational model. Any number of processes run programs against one store; the steps of
different processes interleave in any order, **statement by statement**. A process may open a
transaction, run statements in it and commit or roll back; a statement outside a transaction
commits by itself. Every operation on the store may fail at any time, and then has no effect.

## Isolation

The committed tables are the only shared state. A transaction keeps the statements it has run
(`Tx.done`), and what it sees (`Tx.view`) is their effect on the tables as they are committed *at
that moment* — each statement reads the latest committed rows and the transaction's own writes,
which is the read-committed level. Commit makes the view the committed tables, in one step.

What keeps two transactions apart is only the **locks** a statement takes: `locks s` lists the keys
(row locks and unique index entries) that statement `s` holds until its transaction ends, and a
statement waits while another transaction holds one of its keys. A statement that locks nothing
never waits, so the model allows at least the interleavings of a real store.

## The trace

A world is the list of everything that happened, newest first, with the processes still running.
Each entry carries the committed tables after it, so the trace is also the history of committed
states. Begin, rollback and the statements inside a transaction are not observable and leave no
entry.
-/

namespace Relational

/-- What programs can do: statements on the tables, and calls to the world outside. -/
structure Signature where
  /-- The committed tables. -/
  Db : Type
  /-- Statements. -/
  Stmt : Type
  /-- The result of a statement. -/
  Res : Stmt → Type
  /-- A statement's result and effect. -/
  exec : (s : Stmt) → Db → Res s × Db
  /-- The result of a statement that failed to run. -/
  failed : (s : Stmt) → Res s
  /-- Lockable keys. -/
  Key : Type
  /-- The keys a statement locks until its transaction ends. -/
  locks : Stmt → List Key
  /-- Calls to the outside: clocks, random sources, publishers. -/
  Ext : Type
  /-- The answer of the outside. -/
  ExtRes : Ext → Type

/-- The operations of a program. -/
inductive Op (S : Signature) where
  | stmt (s : S.Stmt)
  | begin
  | commit
  | rollback
  | ext (e : S.Ext)

/-- The result of an operation; for `begin` and `commit`, whether it succeeded. -/
def Op.Res {S : Signature} : Op S → Type
  | .stmt s => S.Res s
  | .begin => Bool
  | .commit => Bool
  | .rollback => Unit
  | .ext e => S.ExtRes e

/-- Programs over a signature. -/
abbrev Program (S : Signature) (α : Type) := Prog (Op S) Op.Res α

/-- The effect of a list of statements, in order. -/
def Signature.run (S : Signature) (ss : List S.Stmt) (d : S.Db) : S.Db :=
  ss.foldl (fun d s ↦ (S.exec s d).2) d

@[simp] theorem Signature.run_nil (S : Signature) (d : S.Db) : S.run [] d = d := rfl

@[simp] theorem Signature.run_concat (S : Signature) (ss : List S.Stmt) (s : S.Stmt) (d : S.Db) :
    S.run (ss ++ [s]) d = (S.exec s (S.run ss d)).2 := by
  simp [Signature.run]

/-- An open transaction: what it has run, and the keys it holds. -/
structure Tx (S : Signature) where
  done : List S.Stmt
  held : List S.Key

/-- A system: the calls that can be made, the program each of them runs, what may happen to the
tables from outside, and the tables it starts from. -/
structure System (S : Signature) where
  Call : Type
  Val : Type
  prog : Call → Program S Val
  env : S.Db → S.Db → Prop
  init : S.Db

variable {S : Signature}

/-- What an observer sees of one step. -/
inductive Event (Y : System S) where
  /-- A call was made. -/
  | start (c : Y.Call)
  /-- A statement ran by itself, outside any transaction. -/
  | stmt (s : S.Stmt) (r : S.Res s)
  /-- A transaction was committed. -/
  | commit
  /-- The outside was called and answered. -/
  | ext (e : S.Ext) (r : S.ExtRes e)
  /-- The call returned. -/
  | ret (v : Y.Val)
  /-- The tables were changed from outside. -/
  | env

/-- One entry of the trace: the process (none for the environment), what it did, and the committed
tables right after. -/
structure Entry (Y : System S) where
  who : Option ℕ
  event : Event Y
  db : S.Db

/-- The history, newest entry first. -/
abbrev Trace (Y : System S) := List (Entry Y)

/-- The committed tables at the end of a history. -/
def Trace.db {Y : System S} : Trace Y → S.Db
  | [] => Y.init
  | e :: _ => e.db

@[simp] theorem Trace.db_cons {Y : System S} (e : Entry Y) (H : Trace Y) :
    Trace.db (e :: H) = e.db := rfl

/-- A process: its remaining program, inside a transaction or not, or halted. -/
inductive Proc (Y : System S) where
  | run (p : Program S Y.Val) (tx : Option (Tx S))
  | halted

/-- The keys a process holds. -/
def Proc.held {Y : System S} : Proc Y → List S.Key
  | .run _ (some tx) => tx.held
  | _ => []

/-- A world: the history so far and the processes. -/
structure World (Y : System S) where
  trace : Trace Y
  procs : ℕ → Option (Proc Y)

namespace World

variable {Y : System S}

/-- The committed tables. -/
def db (w : World Y) : S.Db := Trace.db w.trace

/-- Append an entry. -/
def log (w : World Y) (who : Option ℕ) (ev : Event Y) (d : S.Db) : World Y :=
  { w with trace := ⟨who, ev, d⟩ :: w.trace }

/-- Replace a process. -/
def set (w : World Y) (pid : ℕ) (p : Proc Y) : World Y :=
  { w with procs := Function.update w.procs pid (some p) }

/-- No other process holds one of the keys. -/
def Unlocked (w : World Y) (pid : ℕ) (ks : List S.Key) : Prop :=
  ∀ q p, q ≠ pid → w.procs q = some p → ∀ k ∈ ks, k ∉ p.held

section

variable (w : World Y)
include w

@[simp] theorem trace_log (who : Option ℕ) (ev : Event Y) (d : S.Db) :
    (w.log who ev d).trace = ⟨who, ev, d⟩ :: w.trace := rfl

@[simp] theorem procs_log (who : Option ℕ) (ev : Event Y) (d : S.Db) :
    (w.log who ev d).procs = w.procs := rfl

@[simp] theorem db_log (who : Option ℕ) (ev : Event Y) (d : S.Db) :
    (w.log who ev d).db = d := rfl

@[simp] theorem trace_set (pid : ℕ) (p : Proc Y) : (w.set pid p).trace = w.trace :=
  rfl

@[simp] theorem procs_set (pid : ℕ) (p : Proc Y) :
    (w.set pid p).procs = Function.update w.procs pid (some p) := rfl

theorem procs_set_self (pid : ℕ) (p : Proc Y) : (w.set pid p).procs pid = some p :=
  Function.update_self pid _ _

end

/-- Nothing has happened yet. -/
def init : World Y := ⟨[], fun _ ↦ none⟩

end World

/-- **One step of the system.** Calls start at any time; the environment acts at any time; a
process takes the next operation of its program, which the store may answer or fail. -/
inductive Step (Y : System S) : World Y → World Y → Prop where
  | start {w : World Y} {pid : ℕ} (c : Y.Call) (hfresh : w.procs pid = none) :
      Step Y w ((w.log (some pid) (.start c) w.db).set pid (.run (Y.prog c) none))
  | env {w : World Y} {d : S.Db} (h : Y.env w.db d) : Step Y w (w.log none .env d)
  | ext {w : World Y} {pid : ℕ} {e : S.Ext} {k : S.ExtRes e → Program S Y.Val}
      (hp : w.procs pid = some (.run (.call (.ext e) k) none)) (r : S.ExtRes e) :
      Step Y w ((w.log (some pid) (.ext e r) w.db).set pid (.run (k r) none))
  | stmt {w : World Y} {pid : ℕ} {s : S.Stmt} {k : S.Res s → Program S Y.Val}
      (hp : w.procs pid = some (.run (.call (.stmt s) k) none))
      (hlock : w.Unlocked pid (S.locks s)) :
      Step Y w ((w.log (some pid) (.stmt s (S.exec s w.db).1) (S.exec s w.db).2).set pid
        (.run (k (S.exec s w.db).1) none))
  | stmtFail {w : World Y} {pid : ℕ} {s : S.Stmt} {k : S.Res s → Program S Y.Val}
      (hp : w.procs pid = some (.run (.call (.stmt s) k) none)) :
      Step Y w ((w.log (some pid) (.stmt s (S.failed s)) w.db).set pid
        (.run (k (S.failed s)) none))
  | begin {w : World Y} {pid : ℕ} {k : Bool → Program S Y.Val}
      (hp : w.procs pid = some (.run (.call .begin k) none)) :
      Step Y w (w.set pid (.run (k true) (some ⟨[], []⟩)))
  | beginFail {w : World Y} {pid : ℕ} {k : Bool → Program S Y.Val}
      (hp : w.procs pid = some (.run (.call .begin k) none)) :
      Step Y w (w.set pid (.run (k false) none))
  | txStmt {w : World Y} {pid : ℕ} {s : S.Stmt} {k : S.Res s → Program S Y.Val} {tx : Tx S}
      (hp : w.procs pid = some (.run (.call (.stmt s) k) (some tx)))
      (hlock : w.Unlocked pid (S.locks s)) :
      Step Y w (w.set pid (.run (k (S.exec s (S.run tx.done w.db)).1)
        (some ⟨tx.done ++ [s], S.locks s ++ tx.held⟩)))
  | txFail {w : World Y} {pid : ℕ} {s : S.Stmt} {k : S.Res s → Program S Y.Val} {tx : Tx S}
      (hp : w.procs pid = some (.run (.call (.stmt s) k) (some tx))) :
      Step Y w (w.set pid (.run (k (S.failed s)) (some tx)))
  | commit {w : World Y} {pid : ℕ} {k : Bool → Program S Y.Val} {tx : Tx S}
      (hp : w.procs pid = some (.run (.call .commit k) (some tx))) :
      Step Y w ((w.log (some pid) .commit (S.run tx.done w.db)).set pid (.run (k true) none))
  | commitFail {w : World Y} {pid : ℕ} {k : Bool → Program S Y.Val} {tx : Tx S}
      (hp : w.procs pid = some (.run (.call .commit k) (some tx))) :
      Step Y w (w.set pid (.run (k false) none))
  | rollback {w : World Y} {pid : ℕ} {k : Unit → Program S Y.Val} {tx : Tx S}
      (hp : w.procs pid = some (.run (.call .rollback k) (some tx))) :
      Step Y w (w.set pid (.run (k ()) none))
  | ret {w : World Y} {pid : ℕ} {v : Y.Val} (hp : w.procs pid = some (.run (.ret v) none)) :
      Step Y w ((w.log (some pid) (.ret v) w.db).set pid .halted)

/-- A step appends to the history. -/
theorem Step.suffix {Y : System S} {w w' : World Y} (h : Step Y w w') : w.trace <:+ w'.trace := by
  cases h <;> simp

/-- A process comes into the world with its call. -/
theorem Step.of_fresh {Y : System S} {w w' : World Y} {pid : ℕ} {p : Proc Y} (hs : Step Y w w')
    (hfresh : w.procs pid = none) (hp : w'.procs pid = some p) :
    ∃ c, w' = (w.log (some pid) (.start c) w.db).set pid (.run (Y.prog c) none) := by
  have moved : ∀ {q old new} {P : Prop}, w.procs q = some old →
      w'.procs = Function.update w.procs q (some new) → P := by
    intro q old new _ hq hprocs
    have hne : pid ≠ q := by
      rintro rfl
      rw [hfresh] at hq
      cases hq
    rw [hprocs, Function.update_of_ne hne, hfresh] at hp
    cases hp
  cases hs with
  | @start q c _ =>
    by_cases hq : pid = q
    · subst hq
      exact ⟨c, rfl⟩
    · rw [World.procs_set, Function.update_of_ne hq, World.procs_log, hfresh] at hp
      cases hp
  | env =>
    rw [World.procs_log, hfresh] at hp
    cases hp
  | ext hq | stmt hq | stmtFail hq | begin hq | beginFail hq | txStmt hq | txFail hq | commit hq
  | commitFail hq | rollback hq | ret hq => exact moved hq rfl

/-- A world some interleaving leads to. -/
inductive Reachable (Y : System S) : World Y → Prop where
  | init : Reachable Y World.init
  | step {w w' : World Y} (hw : Reachable Y w) (h : Step Y w w') : Reachable Y w'

end Relational
