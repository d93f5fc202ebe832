import Mathlib.Data.List.Nodup
import Mathlib.Data.List.Sort
import Mathlib.Order.Lattice

/-!
# Maps in the order of insertion

A map from keys to items that carry their key, as a list in the order in which the keys were first
set: `setKey` replaces the item of a key in place or appends it, `getKey` looks it up.

What a list of items amounts to, when they are set one after the other, is the last item of every
key (`lastOf`): the map it makes holds exactly that (`getKey_foldl_setKey`), and a list in strictly
ascending order is determined by it (`Ascending.eq_of_lastOf`). So laws of lists that are merged
through a map and sorted are laws of `Option.or`.
-/

namespace Keyed

open List Option

variable {α κ : Type*}

/-- Put the item in the place of the one with its key, or last. -/
def setKey [DecidableEq κ] (key : α → κ) (item : α) : List α → List α
  | [] => [item]
  | x :: xs => if key x = key item then item :: xs else x :: setKey key item xs

/-- The item of a key. -/
def getKey [DecidableEq κ] (key : α → κ) (id : κ) (items : List α) : Option α :=
  items.find? fun x ↦ key x = id

/-- The last of the items with a key. -/
def lastOf [DecidableEq κ] (key : α → κ) (id : κ) (items : List α) : Option α :=
  (items.filter fun x ↦ key x = id).getLast?

section Map

variable [DecidableEq κ] {key : α → κ} {item x : α} {id : κ} {items xs ys : List α}

theorem mem_of_mem_setKey (h : x ∈ setKey key item xs) : x = item ∨ x ∈ xs := by
  induction xs with
  | nil => exact .inl (mem_singleton.1 h)
  | cons y ys ih =>
    rw [setKey] at h
    split at h
    · exact (mem_cons.1 h).imp_right (mem_cons_of_mem _)
    · rcases mem_cons.1 h with rfl | h
      · exact .inr mem_cons_self
      · exact (ih h).imp_right (mem_cons_of_mem _)

theorem mem_of_mem_foldl_setKey
    (h : x ∈ items.foldl (fun xs item ↦ setKey key item xs) xs) : x ∈ items ∨ x ∈ xs := by
  induction items generalizing xs with
  | nil => exact .inr h
  | cons item items ih =>
    rcases ih h with h | h
    · exact .inl (mem_cons_of_mem _ h)
    · rcases mem_of_mem_setKey h with rfl | h
      · exact .inl mem_cons_self
      · exact .inr h

theorem nodup_setKey (h : (xs.map key).Nodup) : ((setKey key item xs).map key).Nodup := by
  induction xs with
  | nil => simp [setKey]
  | cons y ys ih =>
    obtain ⟨hy, hys⟩ := nodup_cons.1 h
    rw [setKey]
    split
    next heq => exact nodup_cons.2 ⟨heq ▸ hy, hys⟩
    next hne =>
      refine nodup_cons.2 ⟨fun hmem ↦ ?_, ih hys⟩
      obtain ⟨x, hx, hkey⟩ := mem_map.1 hmem
      rcases mem_of_mem_setKey hx with rfl | hx
      · exact hne hkey.symm
      · exact hy (hkey ▸ mem_map_of_mem hx)

theorem nodup_foldl_setKey (h : (xs.map key).Nodup) :
    ((items.foldl (fun xs item ↦ setKey key item xs) xs).map key).Nodup := by
  induction items generalizing xs with
  | nil => exact h
  | cons item items ih => exact ih (nodup_setKey h)

@[simp] theorem getKey_nil : getKey key id ([] : List α) = none := rfl

theorem getKey_cons : getKey key id (x :: xs) = if key x = id then some x else getKey key id xs := by
  by_cases h : key x = id <;> simp [getKey, h]

theorem getKey_setKey_self : getKey key (key item) (setKey key item xs) = some item := by
  induction xs with
  | nil => simp [setKey, getKey_cons]
  | cons y ys ih =>
    rw [setKey]
    split
    next => simp [getKey_cons]
    next hne => rw [getKey_cons, if_neg hne, ih]

theorem getKey_setKey_of_ne (h : id ≠ key item) : getKey key id (setKey key item xs) = getKey key id xs := by
  induction xs with
  | nil => simp [setKey, getKey_cons, h.symm]
  | cons y ys ih =>
    rw [setKey]
    split
    next heq => rw [getKey_cons, getKey_cons, if_neg h.symm, if_neg (heq ▸ h.symm)]
    next => rw [getKey_cons, getKey_cons, ih]

theorem mem_of_getKey (h : getKey key id xs = some x) : x ∈ xs ∧ key x = id := by
  obtain ⟨hx, hmem⟩ := And.intro (find?_some h) (mem_of_find?_eq_some h)
  exact ⟨hmem, by simpa using hx⟩

theorem getKey_of_nodup (h : (xs.map key).Nodup) (hx : x ∈ xs) : getKey key (key x) xs = some x := by
  induction xs with
  | nil => cases hx
  | cons y ys ih =>
    obtain ⟨hy, hys⟩ := nodup_cons.1 h
    rcases mem_cons.1 hx with rfl | hx
    · rw [getKey_cons, if_pos rfl]
    · have hne : key y ≠ key x := fun heq ↦ hy (heq ▸ mem_map_of_mem hx)
      rw [getKey_cons, if_neg hne, ih hys hx]

/-- With distinct keys, the order does not matter. -/
theorem getKey_of_perm (h : (xs.map key).Nodup) (hperm : xs.Perm ys) :
    getKey key id xs = getKey key id ys := by
  have hys : (ys.map key).Nodup := (hperm.map key).nodup_iff.1 h
  refine ext fun x ↦ ⟨fun hx ↦ ?_, fun hx ↦ ?_⟩
  · obtain ⟨hmem, rfl⟩ := mem_of_getKey hx
    exact getKey_of_nodup hys (hperm.mem_iff.1 hmem)
  · obtain ⟨hmem, rfl⟩ := mem_of_getKey hx
    exact getKey_of_nodup h (hperm.mem_iff.2 hmem)

/-- The first of two values that agree. -/
theorem or_or_comm {a b c : Option α} (h : a.isSome → b.isSome → a = b) :
    b.or (a.or c) = a.or (b.or c) := by
  cases a with
  | none => rw [none_or, none_or]
  | some x =>
    cases b with
    | none => rw [none_or, none_or]
    | some y => rw [some_or, some_or, h rfl rfl]

/-! ### The last item of a key -/

theorem lastOf_append : lastOf key id (xs ++ ys) = (lastOf key id ys).or (lastOf key id xs) := by
  rw [lastOf, filter_append, getLast?_append, lastOf, lastOf]

theorem lastOf_singleton : lastOf key id [item] = if key item = id then some item else none := by
  by_cases h : key item = id <;> simp [lastOf, h]

theorem mem_of_lastOf (h : lastOf key id xs = some x) : x ∈ xs ∧ key x = id := by
  obtain ⟨hmem, hkey⟩ := mem_filter.1 (mem_of_getLast? h)
  exact ⟨hmem, of_decide_eq_true hkey⟩

theorem isSome_lastOf : (lastOf key id xs).isSome ↔ id ∈ xs.map key := by
  rw [isSome_iff_ne_none, lastOf, ne_eq, getLast?_eq_none_iff, filter_eq_nil_iff]
  simp

/-- **Setting items one after the other leaves the last of every key.** -/
theorem getKey_foldl_setKey :
    getKey key id (items.foldl (fun xs item ↦ setKey key item xs) xs) =
      (lastOf key id items).or (getKey key id xs) := by
  induction items generalizing xs with
  | nil => rfl
  | cons item items ih =>
    rw [foldl_cons, ih, ← singleton_append, lastOf_append, Option.or_assoc,
      lastOf_singleton]
    by_cases h : key item = id
    · rw [if_pos h, ← h, getKey_setKey_self, some_or]
    · rw [if_neg h, getKey_setKey_of_ne (Ne.symm h), none_or]

/-- With distinct keys, the last item of a key is the only one. -/
theorem lastOf_of_nodup (h : (xs.map key).Nodup) : lastOf key id xs = getKey key id xs := by
  refine ext fun x ↦ ⟨fun hx ↦ ?_, fun hx ↦ ?_⟩
  · obtain ⟨hmem, rfl⟩ := mem_of_lastOf hx
    exact getKey_of_nodup h hmem
  · obtain ⟨hmem, rfl⟩ := mem_of_getKey hx
    have hsome : (lastOf key (key x) xs).isSome := isSome_lastOf.2 (mem_map_of_mem hmem)
    obtain ⟨y, hy⟩ := isSome_iff_exists.1 hsome
    obtain ⟨hmem', hkey⟩ := mem_of_lastOf hy
    rw [hy, ← getKey_of_nodup h hmem', hkey, hx]

end Map

/-! ### Lists sorted by key -/

section Sorted

variable [LinearOrder κ] {key : α → κ} {id : κ} {xs ys : List α}

/-- The keys go strictly up. -/
def Ascending (key : α → κ) (xs : List α) : Prop := xs.Pairwise fun x y ↦ key x < key y

theorem Ascending.nodup (h : Ascending key xs) : (xs.map key).Nodup :=
  pairwise_map.2 (h.imp fun hlt ↦ hlt.ne)

/-- **An ascending list is its lookups.** -/
theorem Ascending.eq_of_lastOf (hx : Ascending key xs) (hy : Ascending key ys)
    (h : ∀ id, lastOf key id xs = lastOf key id ys) : xs = ys := by
  have hsub {l l' : List α} (hl : Ascending key l) (heq : ∀ id, lastOf key id l = lastOf key id l')
      {x : α} (hmem : x ∈ l) : x ∈ l' := by
    have hlast : lastOf key (key x) l = some x :=
      (lastOf_of_nodup hl.nodup).trans (getKey_of_nodup hl.nodup hmem)
    exact (mem_of_lastOf ((heq _).symm.trans hlast)).1
  have : Std.Antisymm fun x y : α ↦ key x < key y := ⟨fun _ _ hxy hyx ↦ absurd hyx (lt_asymm hxy)⟩
  have : Std.Irrefl fun x y : α ↦ key x < key y := ⟨fun x ↦ lt_irrefl (key x)⟩
  exact List.Pairwise.eq_of_mem_iff hx hy fun x ↦ ⟨hsub hx h, hsub hy fun id ↦ (h id).symm⟩

/-- Sorting distinct keys. -/
theorem ascending_insertionSort (h : (xs.map key).Nodup) :
    Ascending key (xs.insertionSort fun x y ↦ key x ≤ key y) := by
  have : Std.Total fun x y : α ↦ key x ≤ key y := ⟨fun x y ↦ le_total (key x) (key y)⟩
  have : IsTrans α fun x y : α ↦ key x ≤ key y := ⟨fun _ _ _ ↦ le_trans⟩
  have hle := pairwise_insertionSort (fun x y : α ↦ key x ≤ key y) xs
  have hne : (xs.insertionSort fun x y ↦ key x ≤ key y).Pairwise fun x y ↦ key x ≠ key y :=
    pairwise_map.1 (((perm_insertionSort _ xs).map key).nodup_iff.2 h)
  exact (hle.and hne).imp fun hxy ↦ lt_of_le_of_ne hxy.1 hxy.2

theorem getKey_insertionSort (h : (xs.map key).Nodup) :
    getKey key id (xs.insertionSort fun x y ↦ key x ≤ key y) = getKey key id xs :=
  (getKey_of_perm h (perm_insertionSort _ xs).symm).symm

end Sorted

end Keyed
