import Nexo.Lib.Machine
import Mathlib.Algebra.BigOperators.Group.List.Basic
import Mathlib.Algebra.Ring.Nat
import Mathlib.Data.Int.Basic
import Mathlib.Data.List.Forall2

/-!
# Goroutines that are counted

A server that waits for its goroutines counts them: work registers itself with a group before it
starts and leaves it when it is over, and the group can be sealed, after which nothing registers.
`Code` is what a goroutine does with the group, with other goroutines and with the dependencies of
the server; conditions on anything else are left open (`choose`). A dependency is called while a
unit is held, or nothing can be said about when the call is over: `Code.safe` checks this, along
every path, by evaluation.

`Pool.Safe` is the invariant. The counter is what all goroutines together hold, with what is in the
queue of jobs between them; so when it is zero in a group that is sealed, no call is in progress,
and none will be (`Pool.Safe.quiet`).
-/

namespace Goroutine

open List Option

/-- The code of a goroutine. A block is a loop that is left where the function returns. -/
inductive Code (D : Type) where
  | exit
  /-- back to the beginning of the innermost loop -/
  | again
  /-- out of the innermost loop -/
  | leave
  | loop (body rest : Code D)
  /-- a condition on something else, or a choice of the scheduler -/
  | choose (yes no : Code D)
  | call (d : D) (k : Code D)
  /-- in the call -/
  | calling (d : D) (k : Code D)
  /-- register a unit; `no` if the group is sealed -/
  | enter (yes no : Code D)
  /-- give a unit back -/
  | done (k : Code D)
  /-- register an operation; the code that follows knows whether it was registered -/
  | op (k : Bool → Code D)
  /-- start a goroutine, which may take a unit along -/
  | spawn (unit : Bool) (child k : Code D)
  /-- run both, and wait for both -/
  | both (left right k : Code D)
  /-- put a job into the queue, which may carry a unit -/
  | send (unit : Bool) (k : Code D)
  /-- take a job from the queue, or do something else -/
  | recv (k : Bool → Code D) (other : Code D)

/-- The group, and the queue of jobs: whether each carries a unit. -/
structure Group where
  count : Int := 0
  sealed : Bool := false
  /-- operations are refused before the group is sealed -/
  refusing : Bool := false
  queue : List Bool := []
  deriving DecidableEq

structure Frame (D : Type) where
  body : Code D
  rest : Code D

/-- A goroutine: its code with the loops that it is in, or two parts that it waits for. -/
inductive Proc (D : Type) where
  | run (code : Code D) (frames : List (Frame D))
  | join (left right : Proc D) (k : Code D) (frames : List (Frame D))

/-- Which part takes the next step, and what it chooses there. -/
inductive Choice where
  | go (yes : Bool)
  | left (c : Choice)
  | right (c : Choice)
  deriving DecidableEq

variable {D : Type} {cover : Bool} {n : ℕ} {p : Proc D} {g : Group}

/-- What a step leaves: the goroutine, the group, and a goroutine that was started. -/
structure Step (D : Type) where
  proc : Proc D
  group : Group
  new : Option (Bool × Code D) := none

namespace Proc

def ended : Proc D → Bool
  | .run .exit _ => true
  | _ => false

/-- **One step of a goroutine.** -/
def next (g : Group) : Proc D → Choice → Option (Step D)
  | .run (.loop body rest) fs, .go _ => some ⟨.run body (⟨body, rest⟩ :: fs), g, none⟩
  | .run .again (f :: fs), .go _ => some ⟨.run f.body (f :: fs), g, none⟩
  | .run .leave (f :: fs), .go _ => some ⟨.run f.rest fs, g, none⟩
  | .run (.choose yes no) fs, .go b => some ⟨.run (if b then yes else no) fs, g, none⟩
  | .run (.call d k) fs, .go _ => some ⟨.run (.calling d k) fs, g, none⟩
  | .run (.calling _ k) fs, .go _ => some ⟨.run k fs, g, none⟩
  | .run (.enter yes no) fs, .go _ =>
    if g.sealed then some ⟨.run no fs, g, none⟩
    else some ⟨.run yes fs, { g with count := g.count + 1 }, none⟩
  | .run (.done k) fs, .go _ => some ⟨.run k fs, { g with count := g.count - 1 }, none⟩
  | .run (.op k) fs, .go _ =>
    if g.sealed || g.refusing then some ⟨.run (k false) fs, g, none⟩
    else some ⟨.run (k true) fs, { g with count := g.count + 1 }, none⟩
  | .run (.spawn unit child k) fs, .go _ => some ⟨.run k fs, g, some (unit, child)⟩
  | .run (.both left right k) fs, .go _ => some ⟨.join (.run left []) (.run right []) k fs, g, none⟩
  | .run (.send unit k) fs, .go _ => some ⟨.run k fs, { g with queue := g.queue ++ [unit] }, none⟩
  | .run (.recv k _) fs, .go true =>
    match g.queue with
    | [] => none
    | unit :: queue => some ⟨.run (k unit) fs, { g with queue }, none⟩
  | .run (.recv _ other) fs, .go false => some ⟨.run other fs, g, none⟩
  | .join left right k fs, .left c =>
    (next g left c).map fun r ↦ { r with proc := .join r.proc right k fs }
  | .join left right k fs, .right c =>
    (next g right c).map fun r ↦ { r with proc := .join left r.proc k fs }
  | .join left right k fs, .go _ =>
    if left.ended && right.ended then some ⟨.run k fs, g, none⟩ else none
  | _, _ => none

/-- A call is in progress. -/
def calls : Proc D → Bool
  | .run (.calling _ _) _ => true
  | .run _ _ => false
  | .join left right _ _ => left.calls || right.calls

end Proc

/-- **Every call is covered**: `own` units are held here, `heads` are those held at the beginning of
each loop, and `cover` tells whether whoever waits for this part holds one. -/
def Code.safe : Code D → (cover : Bool) → (heads : List ℕ) → (own : ℕ) → Bool
  | .exit, _, _, own => own = 0
  | .again, _, heads, own => heads.head? = some own
  | .leave, _, heads, own => heads.head? = some own
  | .loop body rest, cover, heads, own =>
    body.safe cover (own :: heads) own && rest.safe cover heads own
  | .choose yes no, cover, heads, own => yes.safe cover heads own && no.safe cover heads own
  | .call _ k, cover, heads, own => (cover || 0 < own) && k.safe cover heads own
  | .calling _ k, cover, heads, own => (cover || 0 < own) && k.safe cover heads own
  | .enter yes no, cover, heads, own => yes.safe cover heads (own + 1) && no.safe cover heads own
  | .done k, cover, heads, own => 0 < own && k.safe cover heads (own - 1)
  | .op k, cover, heads, own => (k true).safe cover heads (own + 1) && (k false).safe cover heads own
  | .spawn unit child k, cover, heads, own =>
    unit.toNat ≤ own && child.safe false [] unit.toNat && k.safe cover heads (own - unit.toNat)
  | .both left right k, cover, heads, own =>
    left.safe (cover || 0 < own) [] 0 && right.safe (cover || 0 < own) [] 0 && k.safe cover heads own
  | .send unit k, cover, heads, own => unit.toNat ≤ own && k.safe cover heads (own - unit.toNat)
  | .recv k other, cover, heads, own =>
    (k true).safe cover heads (own + 1) && (k false).safe cover heads own && other.safe cover heads own

/-! ### Goroutines -/

/-- The loops that a goroutine is in are safe, each with the units held at its beginning. -/
def FramesSafe (cover : Bool) : List (Frame D) → List ℕ → Prop
  | [], heads => heads = []
  | f :: fs, heads => ∃ head rest, heads = head :: rest ∧ f.body.safe cover heads head = true ∧
      f.rest.safe cover rest head = true ∧ FramesSafe cover fs rest

/-- A goroutine that holds `n` units goes on safely. -/
def Proc.Safe : Proc D → (cover : Bool) → (n : ℕ) → Prop
  | .run code fs, cover, n => ∃ heads, FramesSafe cover fs heads ∧ code.safe cover heads n = true
  | .join left right k fs, cover, n => ∃ m a b heads, n = m + a + b ∧ FramesSafe cover fs heads ∧
      k.safe cover heads m = true ∧ left.Safe (cover || 0 < m) a ∧ right.Safe (cover || 0 < m) b

/-- **Who calls holds a unit**, or is waited for by someone who does. -/
theorem Proc.Safe.covered (h : p.Safe cover n) (hcalls : p.calls = true) :
    cover = true ∨ 0 < n := by
  induction p generalizing cover n with
  | run code fs =>
    obtain ⟨heads, -, hsafe⟩ := h
    cases code with
    | calling d k =>
      simp only [Code.safe, Bool.and_eq_true, Bool.or_eq_true, decide_eq_true_eq] at hsafe
      exact hsafe.1
    | _ => cases hcalls
  | join left right k fs ihl ihr =>
    obtain ⟨m, a, b, heads, rfl, -, -, hl, hr⟩ := h
    have hpart {c : ℕ} (hc : (cover || decide (0 < m)) = true ∨ 0 < c) : cover = true ∨ 0 < m + c := by
      rw [Bool.or_eq_true, decide_eq_true_eq] at hc
      rcases hc with (hc | hc) | hc
      · exact .inl hc
      · exact .inr (by omega)
      · exact .inr (by omega)
    rw [Proc.calls, Bool.or_eq_true] at hcalls
    rcases hcalls with hcalls | hcalls
    · exact (hpart (ihl hl hcalls)).imp_right fun h ↦ by omega
    · exact (hpart (ihr hr hcalls)).imp_right fun h ↦ by omega

/-- The units in the queue. -/
def Group.inQueue (g : Group) : ℕ := (g.queue.map Bool.toNat).sum

/-- **Units are neither made nor lost**: `n` are held before and `n'` after. Only a group that is
not sealed grows. -/
structure Balanced (g g' : Group) (n n' : ℕ) : Prop where
  count : g'.count + g.inQueue + n = g.count + g'.inQueue + n'
  sealed : g'.sealed = g.sealed
  grows : g.sealed = true → g'.count ≤ g.count

theorem Balanced.refl (g : Group) (n : ℕ) : Balanced g g n n := ⟨rfl, rfl, fun _ ↦ Int.le_refl _⟩

/-- The units that a new goroutine takes along. -/
def unitsOf (new : Option (Bool × Code D)) : ℕ := (new.map fun c ↦ c.1.toNat).getD 0

/-- What is left to show of a step. -/
def Step.Safe (g : Group) (cover : Bool) (n : ℕ) (r : Step D) : Prop :=
  ∃ n', r.proc.Safe cover n' ∧ (∀ unit child, r.new = some (unit, child) →
    child.safe false [] unit.toNat = true) ∧ Balanced g r.group n (n' + unitsOf r.new)

/-- A step that leaves the group alone. -/
theorem Step.Safe.quiet (h : p.Safe cover n) :
    Step.Safe g cover n ⟨p, g, none⟩ :=
  ⟨n, h, nofun, .refl g n⟩

/-- A step that registers a unit, in a group that is not sealed. -/
theorem Step.Safe.enter (h : p.Safe cover (n + 1)) (hopen : g.sealed = false) :
    Step.Safe g cover n ⟨p, { g with count := g.count + 1 }, none⟩ := by
  refine ⟨n + 1, h, nofun, ?_, rfl, fun hsealed ↦ ?_⟩
  · change g.count + 1 + g.inQueue + n = g.count + g.inQueue + ((n + 1 + 0 : ℕ) : ℤ)
    push_cast
    omega
  · exact absurd (hopen.symm.trans hsealed) Bool.false_ne_true

/-- A step that moves units out of the goroutine: given back, taken along by another, or into the
queue. -/
theorem Step.Safe.gives {g' : Group} {m : ℕ} {new : Option (Bool × Code D)}
    (h : p.Safe cover (n - m)) (hm : m ≤ n)
    (hnew : ∀ unit child, new = some (unit, child) → child.safe false [] unit.toNat = true)
    (hsealed : g'.sealed = g.sealed) (hle : g'.count ≤ g.count)
    (hcount : g'.count + g.inQueue + m = g.count + g'.inQueue + unitsOf new) :
    Step.Safe g cover n ⟨p, g', new⟩ := by
  refine ⟨n - m, h, hnew, ?_, hsealed, fun _ ↦ hle⟩
  change g'.count + g.inQueue + n = g.count + g'.inQueue + ((n - m + unitsOf new : ℕ) : ℤ)
  push_cast [hm]
  omega

/-- A step that takes a job, with the units that it carries. -/
theorem Step.Safe.takes {queue : List Bool} {unit : Bool} (h : p.Safe cover (n + unit.toNat))
    (hqueue : g.queue = unit :: queue) :
    Step.Safe g cover n ⟨p, { g with queue }, none⟩ := by
  refine ⟨n + unit.toNat, h, nofun, ?_, rfl, fun _ ↦ Int.le_refl _⟩
  simp only [Group.inQueue, hqueue, map_cons, sum_cons, unitsOf, map_none,
    getD_none]
  push_cast
  omega

/-- A goroutine that has ended holds nothing. -/
theorem Proc.Safe.eq_zero (h : p.Safe cover n) (hended : p.ended = true) :
    n = 0 := by
  cases p with
  | run code fs =>
    obtain ⟨heads, -, hsafe⟩ := h
    cases code with
    | exit => simpa [Code.safe] using hsafe
    | _ => cases hended
  | join => cases hended

/-- The units of the others do not change. -/
theorem Balanced.add {g' : Group} {n' k k' : ℕ} (h : Balanced g g' n n') (m : ℕ) (hk : k = n + m)
    (hk' : k' = n' + m) : Balanced g g' k k' := by
  refine ⟨?_, h.sealed, h.grows⟩
  have hcount := h.count
  subst hk hk'
  push_cast
  omega

/-- **Every step of a safe goroutine is safe.** -/
theorem Proc.Safe.next {c : Choice} {r : Step D} (h : p.Safe cover n) (hnext : p.next g c = some r) :
    r.Safe g cover n := by
  induction p generalizing cover n c r with
  | run code fs =>
    obtain ⟨heads, hframes, hsafe⟩ := h
    cases c with
    | left | right => cases code <;> cases fs <;> cases hnext
    | go b =>
      cases code with
      | exit => cases hnext
      | again =>
        cases fs with
        | nil => cases hnext
        | cons f fs =>
          cases hnext
          obtain ⟨head, rest, rfl, hbody, hrest⟩ := hframes
          obtain rfl : head = n := by simpa [Code.safe] using hsafe
          exact .quiet ⟨_, ⟨head, rest, rfl, hbody, hrest⟩, hbody⟩
      | leave =>
        cases fs with
        | nil => cases hnext
        | cons f fs =>
          cases hnext
          obtain ⟨head, rest, rfl, -, hrest, hframes⟩ := hframes
          obtain rfl : head = n := by simpa [Code.safe] using hsafe
          exact .quiet ⟨rest, hframes, hrest⟩
      | loop body rest =>
        cases hnext
        rw [Code.safe, Bool.and_eq_true] at hsafe
        exact .quiet ⟨n :: heads, ⟨n, heads, rfl, hsafe.1, hsafe.2, hframes⟩, hsafe.1⟩
      | choose yes no =>
        cases hnext
        rw [Code.safe, Bool.and_eq_true] at hsafe
        cases b with
        | true => exact .quiet ⟨heads, hframes, hsafe.1⟩
        | false => exact .quiet ⟨heads, hframes, hsafe.2⟩
      | call d k =>
        cases hnext
        exact .quiet ⟨heads, hframes, hsafe⟩
      | calling d k =>
        cases hnext
        rw [Code.safe, Bool.and_eq_true] at hsafe
        exact .quiet ⟨heads, hframes, hsafe.2⟩
      | enter yes no =>
        rw [Code.safe, Bool.and_eq_true] at hsafe
        rw [Proc.next] at hnext
        split at hnext
        next =>
          cases hnext
          exact .quiet ⟨heads, hframes, hsafe.2⟩
        next hopen =>
          cases hnext
          exact .enter ⟨heads, hframes, hsafe.1⟩ (Bool.not_eq_true _ ▸ hopen)
      | done k =>
        cases hnext
        rw [Code.safe, Bool.and_eq_true, decide_eq_true_eq] at hsafe
        refine .gives ⟨heads, hframes, hsafe.2⟩ hsafe.1 nofun rfl ?_ ?_
        · exact Int.sub_le_self _ (by decide)
        · change g.count - 1 + g.inQueue + ((1 : ℕ) : ℤ) = g.count + g.inQueue + ((0 : ℕ) : ℤ)
          omega
      | op k =>
        rw [Code.safe, Bool.and_eq_true] at hsafe
        rw [Proc.next] at hnext
        split at hnext
        next =>
          cases hnext
          exact .quiet ⟨heads, hframes, hsafe.2⟩
        next hopen =>
          rw [Bool.or_eq_true, not_or, Bool.not_eq_true] at hopen
          cases hnext
          exact .enter ⟨heads, hframes, hsafe.1⟩ hopen.1
      | spawn unit child k =>
        cases hnext
        rw [Code.safe, Bool.and_eq_true, Bool.and_eq_true, decide_eq_true_eq] at hsafe
        obtain ⟨⟨hle, hchild⟩, hk⟩ := hsafe
        refine .gives ⟨heads, hframes, hk⟩ hle (fun unit' child' hnew ↦ ?_) rfl (Int.le_refl _) rfl
        cases hnew
        exact hchild
      | both left right k =>
        cases hnext
        rw [Code.safe, Bool.and_eq_true, Bool.and_eq_true] at hsafe
        obtain ⟨⟨hleft, hright⟩, hk⟩ := hsafe
        exact .quiet ⟨n, 0, 0, heads, rfl, hframes, hk, ⟨[], rfl, hleft⟩, ⟨[], rfl, hright⟩⟩
      | send unit k =>
        cases hnext
        rw [Code.safe, Bool.and_eq_true, decide_eq_true_eq] at hsafe
        refine .gives ⟨heads, hframes, hsafe.2⟩ hsafe.1 nofun rfl (Int.le_refl _) ?_
        simp only [Group.inQueue, map_append, map_cons, map_nil, sum_append,
          sum_singleton, unitsOf, map_none, getD_none]
        push_cast
        omega
      | recv k other =>
        rw [Code.safe, Bool.and_eq_true, Bool.and_eq_true] at hsafe
        obtain ⟨⟨htrue, hfalse⟩, hother⟩ := hsafe
        cases b with
        | false =>
          cases hnext
          exact .quiet ⟨heads, hframes, hother⟩
        | true =>
          rw [Proc.next] at hnext
          split at hnext
          next => cases hnext
          next unit queue hqueue =>
            cases hnext
            refine .takes ⟨heads, hframes, ?_⟩ hqueue
            cases unit with
            | true => exact htrue
            | false => exact hfalse
  | join left right k fs ihl ihr =>
    obtain ⟨m, a, b, heads, rfl, hframes, hk, hl, hr⟩ := h
    cases c with
    | go =>
      rw [Proc.next] at hnext
      split at hnext
      next hended =>
        rw [Bool.and_eq_true] at hended
        cases hnext
        obtain rfl := hl.eq_zero hended.1
        obtain rfl := hr.eq_zero hended.2
        exact .quiet ⟨heads, hframes, hk⟩
      next => cases hnext
    | left c =>
      obtain ⟨r₀, hr₀, rfl⟩ := map_eq_some_iff.1 hnext
      obtain ⟨a', ha', hnew, hbalanced⟩ := ihl hl hr₀
      refine ⟨m + a' + b, ⟨m, a', b, heads, rfl, hframes, hk, ha', hr⟩, hnew, ?_⟩
      exact hbalanced.add (m + b) (by omega) (by dsimp only; omega)
    | right c =>
      obtain ⟨r₀, hr₀, rfl⟩ := map_eq_some_iff.1 hnext
      obtain ⟨b', hb', hnew, hbalanced⟩ := ihr hr hr₀
      refine ⟨m + a + b', ⟨m, a, b', heads, rfl, hframes, hk, hl, hb'⟩, hnew, ?_⟩
      exact hbalanced.add (m + a) (by omega) (by dsimp only; omega)

/-! ### All goroutines -/

section Lists

variable {α β : Type} {R : α → β → Prop} {l : List α} {ns : List β} {k : ℕ} {a : α}

theorem exists_of_forall₂ (h : List.Forall₂ R l ns) (ha : l[k]? = some a) : ∃ n, ns[k]? = some n ∧ R a n := by
  induction h generalizing k with
  | nil => simp at ha
  | cons hR _ ih =>
    cases k with
    | zero =>
      cases ha
      exact ⟨_, rfl, hR⟩
    | succ k => exact ih ha

theorem forall₂_set (h : List.Forall₂ R l ns) {b : α} {m : β} (hR : R b m) :
    List.Forall₂ R (l.set k b) (ns.set k m) := by
  induction h generalizing k with
  | nil => exact .nil
  | cons hR' h ih =>
    cases k with
    | zero => exact .cons hR h
    | succ k => exact .cons hR' ih

end Lists

/-- One entry apart from the others. -/
theorem sum_split {ns : List ℕ} {k : ℕ} (h : ns[k]? = some n) :
    ∃ rest, ns.sum = rest + n ∧ ∀ m, (ns.set k m).sum = rest + m := by
  simpa [Machine.tally] using Machine.tally_split id h

structure Pool (D : Type) where
  procs : List (Proc D) := []
  group : Group := {}

namespace Pool

/-- A goroutine is started from outside. -/
def start (s : Pool D) (code : Code D) : Pool D := { s with procs := s.procs ++ [.run code []] }

/-- A step of goroutine `k`. -/
def next (s : Pool D) (k : ℕ) (c : Choice) : Option (Pool D) :=
  s.procs[k]?.bind fun p ↦ (p.next s.group c).map fun r ↦
    { procs := s.procs.set k r.proc ++ (r.new.map fun new ↦ Proc.run new.2 []).toList, group := r.group }

/-- No call is in progress. -/
def quiet (s : Pool D) : Prop := ∀ p ∈ s.procs, p.calls = false

/-- **The invariant**: every goroutine goes on safely with what it holds, and the counter is what
they hold together, with what is in the queue. -/
def Safe (s : Pool D) : Prop :=
  ∃ ns, List.Forall₂ (fun p n ↦ p.Safe false n) s.procs ns ∧ s.group.count = (ns.sum + s.group.inQueue : ℕ)

variable {s s' : Pool D}

theorem Safe.count_nonneg (h : s.Safe) : 0 ≤ s.group.count := by
  obtain ⟨ns, -, hcount⟩ := h
  rw [hcount]
  exact Int.natCast_nonneg _

/-- **When nothing is registered, nobody calls.** -/
theorem Safe.quiet (h : s.Safe) (hzero : s.group.count = 0) : s.quiet := by
  obtain ⟨ns, hsafe, hcount⟩ := h
  intro p hp
  obtain ⟨k, hk⟩ := getElem?_of_mem hp
  obtain ⟨n, hn, hpn⟩ := exists_of_forall₂ hsafe hk
  obtain ⟨rest, hsum, -⟩ := sum_split hn
  rw [← Bool.not_eq_true]
  intro hcalls
  rcases hpn.covered hcalls with h | h
  · cases h
  · omega

theorem Safe.start (h : s.Safe) {code : Code D} (hcode : code.safe false [] 0 = true) :
    (s.start code).Safe := by
  obtain ⟨ns, hsafe, hcount⟩ := h
  refine ⟨ns ++ [0], ?_, ?_⟩
  · exact rel_append hsafe (.cons ⟨[], rfl, hcode⟩ .nil)
  · rw [sum_append, sum_singleton]
    exact hcount

/-- **A step keeps the invariant**; a group that is sealed stays so and does not grow. -/
theorem Safe.next {k : ℕ} {c : Choice} (h : s.Safe) (hnext : s.next k c = some s') :
    s'.Safe ∧ s'.group.sealed = s.group.sealed ∧
      (s.group.sealed = true → s'.group.count ≤ s.group.count) := by
  obtain ⟨ns, hsafe, hcount⟩ := h
  obtain ⟨p, hp, hnext⟩ := bind_eq_some_iff.1 hnext
  obtain ⟨r, hr, rfl⟩ := map_eq_some_iff.1 hnext
  obtain ⟨n, hn, hpn⟩ := exists_of_forall₂ hsafe hp
  obtain ⟨n', hn', hnew, hbalanced⟩ := hpn.next hr
  obtain ⟨rest, hsum, hset⟩ := sum_split hn
  have hbalance := hbalanced.count
  refine ⟨?_, hbalanced.sealed, hbalanced.grows⟩
  have hold : List.Forall₂ (fun p n ↦ p.Safe false n) (s.procs.set k r.proc) (ns.set k n') :=
    forall₂_set hsafe hn'
  rcases hc : r.new with - | ⟨unit, child⟩
  · refine ⟨ns.set k n', ?_, ?_⟩
    · simpa [hc] using hold
    · rw [hset]
      simp only [hc, unitsOf, map_none, getD_none] at hbalance
      dsimp only
      omega
  · refine ⟨ns.set k n' ++ [unit.toNat], ?_, ?_⟩
    · exact rel_append hold (.cons ⟨[], rfl, hnew unit child hc⟩ .nil)
    · rw [sum_append, sum_singleton, hset]
      simp only [hc, unitsOf, map_some, getD_some] at hbalance
      dsimp only
      omega

end Pool

end Goroutine
