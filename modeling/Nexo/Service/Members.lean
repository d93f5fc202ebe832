import Nexo.Lib.Machine
import Mathlib.Algebra.Order.Group.Defs
import Mathlib.Data.List.AList

/-!
# Rosters and their cache

`service/message/members.go` and the group branch of `Recipients`. The cache is a Go map under a
mutex; its values are the member ids of a group. Clock readings are arguments, and nothing is
assumed of them.

The **machine of rosters** (`RosterState`, `RosterEvent`) interleaves any number of calls of
`Recipients` with membership commits and `InvalidateGroup`. A call is three steps: `get`, and if
nothing is found `ListGroupMembers` and `set`. What a listing returns is stamped with the commits of
the group it has seen, for the statements only.
-/

namespace Nexo.Members

/-- `memberCacheMax` -/
def memberCacheMax : ℕ := 10000

section Cache

variable {V T : Type}

/-- `memberEntry`, with any values for ids. -/
structure MemberEntry (V T : Type) where
  ids : V
  expires : T
  deriving DecidableEq

/-- The entries of `memberCache`. -/
abbrev Entries (V T : Type) := AList fun _ : String ↦ MemberEntry V T

structure MemberCache (V T : Type) where
  ttl : T
  entries : Entries V T

theorem lookup_of_lookup_erase {es : Entries V T} {g g' : String} {e : MemberEntry V T}
    (h : (es.erase g').lookup g = some e) : g ≠ g' ∧ es.lookup g = some e := by
  by_cases hg : g = g'
  · rw [hg, AList.lookup_erase] at h
    cases h
  · rw [AList.lookup_erase_ne hg] at h
    exact ⟨hg, h⟩

variable [LinearOrder T]

/-- `maps.DeleteFunc` of the entries that have expired. -/
def deleteExpired (es : Entries V T) (now : T) : Entries V T :=
  ⟨es.entries.filter fun x ↦ !decide (x.2.expires < now), es.nodupKeys.sublist List.filter_sublist⟩

/-- The entries with room for one more. -/
def makeRoom (es : Entries V T) (now : T) : Entries V T :=
  if memberCacheMax ≤ es.entries.length then
    -- still full of live entries: drop everything rather than grow
    if memberCacheMax ≤ (deleteExpired es now).entries.length then ∅ else deleteExpired es now
  else es

/-- Room is made by dropping entries only. -/
theorem lookup_of_lookup_makeRoom {es : Entries V T} {now : T} {g : String} {e : MemberEntry V T}
    (h : (makeRoom es now).lookup g = some e) : es.lookup g = some e := by
  rw [makeRoom] at h
  split_ifs at h
  · cases h
  · exact AList.mem_lookup_iff.2 (List.mem_of_mem_filter (AList.mem_lookup_iff.1 h))
  · exact h

variable [AddCommGroup T]

/-- `memberCache.get`; `none` stands for `nil` and `false`. -/
def MemberCache.get (c : MemberCache V T) (now : T) (groupId : String) : Option V × MemberCache V T :=
  if c.ttl ≤ 0 then (none, c)
  else
    match c.entries.lookup groupId with
    | none => (none, { c with entries := c.entries.erase groupId })
    | some e =>
      if e.expires < now then (none, { c with entries := c.entries.erase groupId })
      else (some e.ids, c)

/-- `memberCache.set`, which reads the clock at `now` if it has to make room, and at `now'`. -/
def MemberCache.set (c : MemberCache V T) (now now' : T) (groupId : String) (ids : V) : MemberCache V T :=
  if c.ttl ≤ 0 then c
  else
    { c with entries := (makeRoom c.entries now).insert groupId { ids, expires := now' + c.ttl } }

/-- `memberCache.invalidate` -/
def MemberCache.invalidate (c : MemberCache V T) (groupId : String) : MemberCache V T :=
  { c with entries := c.entries.erase groupId }

/-! ### What the operations leave -/

variable {c : MemberCache V T} {g g' : String} {e : MemberEntry V T} {now now' : T} {ids : V}

/-- **`get`** returns an entry's ids or nothing, and adds no entry. -/
theorem get_spec (c : MemberCache V T) (now : T) (g : String) :
    (∀ ids, (c.get now g).1 = some ids → ∃ e, c.entries.lookup g = some e ∧ e.ids = ids) ∧
      ∀ g' e, (c.get now g).2.entries.lookup g' = some e → c.entries.lookup g' = some e := by
  rw [MemberCache.get]
  split_ifs with hpos
  · exact ⟨nofun, fun _ _ h ↦ h⟩
  · split
    next => exact ⟨nofun, fun _ _ h ↦ (lookup_of_lookup_erase h).2⟩
    next e he =>
      split_ifs
      · exact ⟨nofun, fun _ _ h ↦ (lookup_of_lookup_erase h).2⟩
      · exact ⟨fun ids hids ↦ ⟨e, he, Option.some.inj hids⟩, fun _ _ h ↦ h⟩

theorem ttl_get (c : MemberCache V T) (now : T) (g : String) : (c.get now g).2.ttl = c.ttl := by
  rw [MemberCache.get]
  split_ifs
  · rfl
  · split
    next => rfl
    next => split_ifs <;> rfl

theorem ttl_set (c : MemberCache V T) (now now' : T) (g : String) (ids : V) :
    (c.set now now' g ids).ttl = c.ttl := by
  rw [MemberCache.set]
  split_ifs <;> rfl

/-- **`set`** adds one entry at most, and may drop others. -/
theorem lookup_of_lookup_set (h : (c.set now now' g ids).entries.lookup g' = some e) :
    g' = g ∧ e.ids = ids ∨ c.entries.lookup g' = some e := by
  rw [MemberCache.set] at h
  split_ifs at h
  · exact .inr h
  · by_cases hg : g' = g
    · rw [hg, AList.lookup_insert] at h
      exact .inl ⟨hg, Option.some.inj h ▸ rfl⟩
    · rw [AList.lookup_insert_ne hg] at h
      exact .inr (lookup_of_lookup_makeRoom h)

/-- What was just put into the cache is found. -/
theorem get_set [IsOrderedAddMonoid T] (hpos : 0 < c.ttl) :
    ((c.set now now' g ids).get now' g).1 = some ids := by
  have hset : c.set now now' g ids =
      { c with entries := (makeRoom c.entries now).insert g { ids, expires := now' + c.ttl } } :=
    if_neg hpos.not_ge
  rw [hset, MemberCache.get, if_neg hpos.not_ge]
  simp only [AList.lookup_insert]
  rw [if_neg (lt_add_of_pos_right now' hpos).not_gt]

end Cache

/-! ### The machine of rosters -/

/-- What `ListGroupMembers` returned, and the commits of the group that it has seen, newest first.
-/
structure Listing where
  ids : List String
  seen : List (List String)
  deriving DecidableEq

/-- Where a call of `Recipients` is. -/
inductive Stage where
  | started
  | missed
  | listed (l : Listing)
  | returned (l : Listing)
  | failed
  deriving DecidableEq

structure RecipientsCall where
  groupId : String
  /-- The commits that preceded the last `InvalidateGroup` before the call. -/
  owed : List (List String)
  stage : Stage
  deriving DecidableEq

structure RosterState (T : Type) where
  /-- The commits of each group, as the rosters they leave, newest first. -/
  history : String → List (List String) := fun _ ↦ []
  cache : MemberCache Listing T
  /-- The commits that preceded the last `InvalidateGroup`. -/
  invalidated : String → List (List String) := fun _ ↦ []
  calls : List RecipientsCall := []

inductive RosterEvent (T : Type) where
  /-- A transaction that changes the members commits. -/
  | commit (groupId : String) (ids : List String)
  | invalidateGroup (groupId : String)
  /-- `Recipients` is called. -/
  | call (groupId : String)
  | get (i : ℕ) (now : T)
  /-- `ListGroupMembers`, which may fail. -/
  | list (i : ℕ) (fails : Bool)
  | set (i : ℕ) (now now' : T)
  deriving DecidableEq

/-- A call takes its next step. -/
def RosterState.move {T : Type} (σ : RosterState T) (i : ℕ) (c : RecipientsCall) (stage : Stage) :
    RosterState T :=
  { σ with calls := σ.calls.set i { c with stage } }

variable {T : Type} [LinearOrder T] [AddCommGroup T]

def RosterState.next (σ : RosterState T) : RosterEvent T → Option (RosterState T)
  | .commit g ids => some { σ with history := Function.update σ.history g (ids :: σ.history g) }
  | .invalidateGroup g => some { σ with
      cache := σ.cache.invalidate g
      invalidated := Function.update σ.invalidated g (σ.history g) }
  | .call g => some { σ with calls := σ.calls ++ [⟨g, σ.invalidated g, .started⟩] }
  | .get i now =>
    σ.calls[i]?.bind fun c ↦
      if c.stage = .started then
        some ({ σ with cache := (σ.cache.get now c.groupId).2 }.move i c
          ((σ.cache.get now c.groupId).1.elim .missed .returned))
      else none
  | .list i fails =>
    σ.calls[i]?.bind fun c ↦
      if c.stage = .missed then
        let l : Listing := ⟨(σ.history c.groupId).headD [], σ.history c.groupId⟩
        some (σ.move i c (if fails then .failed else .listed l))
      else none
  | .set i now now' =>
    σ.calls[i]?.bind fun c ↦
      match c.stage with
      | .listed l => some ({ σ with cache := σ.cache.set now now' c.groupId l }.move i c (.returned l))
      | _ => none

/-- The machine, with an empty cache. -/
def rosterSystem (ttl : T) : Machine.System (RosterState T) (RosterEvent T) :=
  .guarded { cache := ⟨ttl, ∅⟩ } RosterState.next

end Nexo.Members
