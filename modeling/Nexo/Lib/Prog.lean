import Mathlib.Tactic.Common

/-!
# Programs over uninterpreted operations

A program is a tree: it returns, or it calls an operation and continues with the operation's
result. Nothing is said here about what an operation does; a run, a scheduler or a program logic
gives the tree its meaning. `Res op` is the type of the results of `op`, so that a program is
written with the result types the modelled code has.

`Prog` is a monad, and its laws hold definitionally at `ret` and `call`.
-/

namespace Relational

/-- A program that calls operations `Op` (with results `Res`) and returns an `α`. -/
inductive Prog (Op : Type) (Res : Op → Type) (α : Type) where
  /-- Return. -/
  | ret (a : α)
  /-- Call an operation and continue with its result. -/
  | call (op : Op) (k : Res op → Prog Op Res α)

namespace Prog

variable {Op : Type} {Res : Op → Type} {α β γ : Type}

/-- Sequencing: graft the continuation at every return. -/
def bind : Prog Op Res α → (α → Prog Op Res β) → Prog Op Res β
  | ret a, f => f a
  | call op k, f => call op fun r ↦ (k r).bind f

instance : Monad (Prog Op Res) where
  pure := ret
  bind := bind

/-- One operation, as a program. -/
def op (o : Op) : Prog Op Res (Res o) := call o ret

@[simp] theorem pure_eq (a : α) : (pure a : Prog Op Res α) = ret a := rfl

@[simp] theorem ret_bind (a : α) (f : α → Prog Op Res β) : (ret a >>= f) = f a := rfl

@[simp] theorem call_bind (o : Op) (k : Res o → Prog Op Res α) (f : α → Prog Op Res β) :
    (call o k >>= f) = call o fun r ↦ k r >>= f := rfl

@[simp] theorem op_bind (o : Op) (f : Res o → Prog Op Res β) : (op o >>= f) = call o f := rfl

theorem bind_ret (p : Prog Op Res α) : p >>= ret = p := by
  induction p with
  | ret a => rfl
  | call o k ih => exact congrArg (call o) (funext ih)

theorem bind_assoc (p : Prog Op Res α) (f : α → Prog Op Res β) (g : β → Prog Op Res γ) :
    p >>= f >>= g = p >>= fun a ↦ f a >>= g := by
  induction p with
  | ret a => rfl
  | call o k ih => exact congrArg (call o) (funext ih)

instance : LawfulMonad (Prog Op Res) :=
  LawfulMonad.mk' _ (fun p ↦ bind_ret p) (fun _ _ ↦ rfl) bind_assoc

end Prog

end Relational
