import Mathlib.Data.List.Nodup
import Mathlib.Data.List.Pairwise
import Mathlib.Tactic.Common

/-!
# Tables with unique indexes

A relational table, as a list of rows together with the list of **index keys** each row occupies.
A row may occupy several keys (a primary key and further unique indexes): the one law is that no
key is occupied twice, over the whole table. It is a field of the structure, so a table that breaks
a unique index cannot be built, and each statement below has to keep it.

The four shapes of statement are

* `insert`, which does nothing when a key of the new row is taken (`ON CONFLICT DO NOTHING`);
* `insertAll?`, the bulk copy, which fails on the first conflict and leaves no trace of itself;
* `update`, over the rows a condition selects, by a function that keeps the keys;
* `delete`, of the rows a condition selects.

Each comes with its `get` equation, so that a table is reasoned about through lookups alone;
`count` is the only other observation and has the matching equations.
-/

namespace Relational

open List Option

/-- A table of rows `R` with unique index keys `K`: `keys r` lists the keys row `r` occupies. -/
structure Table (R K : Type) (keys : R → List K) where
  /-- The rows, in insertion order. -/
  rows : List R
  /-- No key is occupied twice. -/
  unique : (rows.flatMap keys).Nodup

namespace Table

variable {R K : Type} {keys : R → List K} {t t' : Table R K keys} {r : R} {rs : List R} {k : K}

/-- The table without rows. -/
def empty : Table R K keys := ⟨[], List.nodup_nil⟩

@[simp] theorem rows_empty : (empty : Table R K keys).rows = [] := rfl

/-- Two rows that occupy one key are the same row. -/
theorem eq_of_mem_keys {r r' : R} (hr : r ∈ t.rows)
    (hr' : r' ∈ t.rows) (hk : k ∈ keys r) (hk' : k ∈ keys r') : r = r' := by
  by_contra hne
  have : Std.Symm (Function.onFun List.Disjoint keys) := ⟨fun _ _ h _ ha hb ↦ h hb ha⟩
  have hdisj := (nodup_flatMap.1 t.unique).2.forall hr hr' hne
  exact hdisj hk hk'

/-- Rows that occupy keys are not repeated. -/
theorem nodup_rows (t : Table R K keys) (h : ∀ r, keys r ≠ []) : t.rows.Nodup := by
  refine (nodup_flatMap.1 t.unique).2.imp ?_
  rintro r r' hdisj rfl
  obtain ⟨k, hk⟩ := exists_mem_of_ne_nil _ (h r)
  exact hdisj hk hk

variable [DecidableEq K] {p q : R → Bool}

/-- The row that occupies a key. -/
def get (t : Table R K keys) (k : K) : Option R := t.rows.find? fun r ↦ decide (k ∈ keys r)

@[simp] theorem get_empty (k : K) : (empty : Table R K keys).get k = none := rfl

/-- Lookup is exactly membership with the key. -/
theorem get_eq_some_iff : t.get k = some r ↔ r ∈ t.rows ∧ k ∈ keys r := by
  constructor
  · intro h
    exact ⟨mem_of_find?_eq_some h, by simpa using find?_some h⟩
  · rintro ⟨hr, hk⟩
    rcases h : t.get k with - | r'
    · exact absurd hk (by simpa using find?_eq_none.1 h r hr)
    · have hk' : k ∈ keys r' := by simpa using find?_some h
      rw [eq_of_mem_keys (mem_of_find?_eq_some h) hr hk' hk]

theorem get_eq_none_iff : t.get k = none ↔ ∀ r ∈ t.rows, k ∉ keys r := by
  simp [get, find?_eq_none]

theorem mem_of_get (h : t.get k = some r) : r ∈ t.rows :=
  (get_eq_some_iff.1 h).1

theorem mem_keys_of_get (h : t.get k = some r) : k ∈ keys r :=
  (get_eq_some_iff.1 h).2

/-! ### Insertion -/

/-- A row is **free** to enter when its keys are distinct and none of them is taken. -/
def Free (t : Table R K keys) (r : R) : Prop := (keys r).Nodup ∧ ∀ k ∈ keys r, t.get k = none

instance (t : Table R K keys) (r : R) : Decidable (t.Free r) :=
  inferInstanceAs (Decidable (_ ∧ ∀ k ∈ keys r, t.get k = none))

/-- Whether a row is free depends only on which of its keys are taken. -/
theorem free_congr
    (h : ∀ k ∈ keys r, (t.get k).isSome = (t'.get k).isSome) : t.Free r ↔ t'.Free r := by
  refine and_congr_right fun _ ↦ forall₂_congr fun k hk ↦ ?_
  rw [← not_isSome_iff_eq_none, ← not_isSome_iff_eq_none, h k hk]

theorem nodup_append_of_free (h : t.Free r) : ((t.rows ++ [r]).flatMap keys).Nodup := by
  rw [flatMap_append, flatMap_singleton]
  refine List.Nodup.append t.unique h.1 ?_
  intro k hk hkr
  obtain ⟨r', hr', hk'⟩ := mem_flatMap.1 hk
  exact get_eq_none_iff.1 (h.2 k hkr) r' hr' hk'

/-- Insertion that gives way to whatever occupies one of the keys. -/
def insert (t : Table R K keys) (r : R) : Table R K keys :=
  if h : t.Free r then ⟨t.rows ++ [r], nodup_append_of_free h⟩ else t

theorem rows_insert_of_free (h : t.Free r) : (t.insert r).rows = t.rows ++ [r] := by
  simp [insert, h]

theorem insert_of_not_free (h : ¬ t.Free r) : t.insert r = t := by
  simp [insert, h]

theorem mem_insert_of_free {r r' : R} (h : t.Free r) :
    r' ∈ (t.insert r).rows ↔ r' ∈ t.rows ∨ r' = r := by
  rw [rows_insert_of_free h]
  simp

theorem get_insert_of_free (h : t.Free r) (k : K) :
    (t.insert r).get k = if k ∈ keys r then some r else t.get k := by
  rw [get, rows_insert_of_free h, find?_append]
  by_cases hk : k ∈ keys r
  · have hnone : t.rows.find? (fun r ↦ decide (k ∈ keys r)) = none := h.2 k hk
    simp [hnone, hk]
  · simp [hk, get]

/-- A single-key insertion, free or not, fills exactly its own key. -/
theorem get_insert_single {k₀ : K} (hr : keys r = [k₀]) (k : K) :
    (t.insert r).get k = if k = k₀ then some ((t.get k₀).getD r) else t.get k := by
  by_cases hf : t.Free r
  · have hk₀ : t.get k₀ = none := hf.2 k₀ (by simp [hr])
    rw [get_insert_of_free hf, hr]
    simp [hk₀]
  · rw [insert_of_not_free hf]
    split
    · next h =>
      subst h
      rcases hg : t.get k with - | r'
      · exact absurd ⟨by simp [hr], by simpa [hr] using hg⟩ hf
      · rfl
    · rfl

/-- The bulk copy: every row in turn, or nothing at all. -/
def insertAll? (t : Table R K keys) : List R → Option (Table R K keys)
  | [] => some t
  | r :: rs => if t.Free r then (t.insert r).insertAll? rs else none

@[simp] theorem insertAll?_nil (t : Table R K keys) : t.insertAll? [] = some t := rfl

theorem insertAll?_cons_eq_some :
    t.insertAll? (r :: rs) = some t' ↔ t.Free r ∧ (t.insert r).insertAll? rs = some t' := by
  by_cases h : t.Free r <;> simp [insertAll?, h]

section

variable (h : t.insertAll? rs = some t')
include h

theorem rows_of_insertAll? : t'.rows = t.rows ++ rs := by
  induction rs generalizing t with
  | nil => simp only [insertAll?_nil, some.injEq] at h; simp [h]
  | cons r rs ih =>
    obtain ⟨hf, hrest⟩ := insertAll?_cons_eq_some.1 h
    rw [ih hrest, rows_insert_of_free hf, append_assoc, singleton_append]

theorem mem_of_insertAll? : r ∈ t'.rows ↔ r ∈ t.rows ∨ r ∈ rs := by
  rw [rows_of_insertAll? h, mem_append]

/-- No row of a successful bulk copy was there before under one of its keys. -/
theorem get_eq_none_of_insertAll? (hr : r ∈ rs) (hk : k ∈ keys r) :
    t.get k = none := by
  rcases hg : t.get k with - | r'
  · rfl
  · obtain ⟨hr', hk'⟩ := get_eq_some_iff.1 hg
    have hu := t'.unique
    rw [rows_of_insertAll? h, flatMap_append] at hu
    have hdisj := (nodup_append.1 hu).2.2
    exact absurd rfl (hdisj k (mem_flatMap.2 ⟨r', hr', hk'⟩) k
      (mem_flatMap.2 ⟨r, hr, hk⟩))

theorem get_of_insertAll?
    (k : K) : t'.get k = (t.get k).or (rs.find? fun r ↦ decide (k ∈ keys r)) := by
  rw [get, rows_of_insertAll? h, find?_append, get]

theorem get_of_insertAll?_of_notMem (hk : ∀ r ∈ rs, k ∉ keys r) : t'.get k = t.get k := by
  have hfind : rs.find? (fun r ↦ decide (k ∈ keys r)) = none :=
    find?_eq_none.2 (by simpa using hk)
  rw [get_of_insertAll? h, hfind, or_none]

theorem get_of_insertAll?_of_mem (hr : r ∈ rs) (hk : k ∈ keys r) :
    t'.get k = some r :=
  get_eq_some_iff.2 ⟨(mem_of_insertAll? h).2 (Or.inr hr), hk⟩

end

/-- A bulk copy goes through exactly when the new keys are distinct and free. -/
theorem exists_insertAll?_iff : (∃ t', t.insertAll? rs = some t') ↔
      (rs.flatMap keys).Nodup ∧ ∀ k ∈ rs.flatMap keys, t.get k = none := by
  constructor
  · rintro ⟨t', h⟩
    have hu := t'.unique
    rw [rows_of_insertAll? h, flatMap_append] at hu
    refine ⟨(nodup_append.1 hu).2.1, fun k hk ↦ ?_⟩
    obtain ⟨r, hr, hk⟩ := mem_flatMap.1 hk
    exact get_eq_none_of_insertAll? h hr hk
  · rintro ⟨hnd, hfree⟩
    induction rs generalizing t with
    | nil => exact ⟨t, rfl⟩
    | cons r rs ih =>
      rw [flatMap_cons] at hnd hfree
      have hf : t.Free r := ⟨hnd.of_append_left, fun k hk ↦ hfree k (mem_append_left _ hk)⟩
      obtain ⟨t', ht'⟩ := ih (t := t.insert r) hnd.of_append_right fun k hk ↦ by
        rw [get_insert_of_free hf, if_neg fun hk' ↦ (disjoint_of_nodup_append hnd) hk' hk]
        exact hfree k (mem_append_right _ hk)
      exact ⟨t', insertAll?_cons_eq_some.2 ⟨hf, ht'⟩⟩

/-- Whether a bulk copy goes through depends only on which of its keys are taken. -/
theorem exists_insertAll?_congr (h : ∀ k ∈ rs.flatMap keys, (t.get k).isSome = (t'.get k).isSome) :
    (∃ s, t.insertAll? rs = some s) ↔ ∃ s, t'.insertAll? rs = some s := by
  rw [exists_insertAll?_iff, exists_insertAll?_iff]
  refine and_congr_right fun _ ↦ forall₂_congr fun k hk ↦ ?_
  rw [← not_isSome_iff_eq_none, ← not_isSome_iff_eq_none, h k hk]

/-! ### Update and deletion -/

/-- Rewrite the rows a condition selects; the rewriting keeps the keys. -/
def update (t : Table R K keys) (p : R → Bool) (f : R → R) (hf : ∀ r, keys (f r) = keys r) :
    Table R K keys where
  rows := t.rows.map fun r ↦ if p r then f r else r
  unique := by
    have hkeys : ∀ r, keys (if p r then f r else r) = keys r := by
      intro r
      split
      · exact hf r
      · rfl
    rw [List.flatMap_map]
    simpa [hkeys] using t.unique

theorem get_update {f : R → R} (hf : ∀ r, keys (f r) = keys r) (k : K) :
    (t.update p f hf).get k = (t.get k).map fun r ↦ if p r then f r else r := by
  have hkeys : ∀ r, keys (if p r then f r else r) = keys r := by
    intro r
    split
    · exact hf r
    · rfl
  simp only [get, update, find?_map, Function.comp_def, hkeys]

/-- Drop the rows a condition selects. -/
def delete (t : Table R K keys) (p : R → Bool) : Table R K keys where
  rows := t.rows.filter fun r ↦ !p r
  unique := by
    refine t.unique.sublist ?_
    induction t.rows with
    | nil => simp
    | cons r rs ih =>
      by_cases hp : p r
      · simpa [hp] using ih.trans (List.sublist_append_right (keys r) _)
      · simpa [hp] using ih

omit [DecidableEq K] in
theorem mem_delete : r ∈ (t.delete p).rows ↔ r ∈ t.rows ∧ p r = false := by
  simp [delete]

theorem get_delete (k : K) : (t.delete p).get k = (t.get k).filter fun r ↦ !p r := by
  rcases h : (t.get k).filter (fun r ↦ !p r) with - | r
  · refine get_eq_none_iff.2 fun r hr hk ↦ ?_
    obtain ⟨hr, hp⟩ := mem_delete.1 hr
    rw [get_eq_some_iff.2 ⟨hr, hk⟩] at h
    simp [hp] at h
  · obtain ⟨hg, hp⟩ := filter_eq_some_iff.1 h
    obtain ⟨hr, hk⟩ := get_eq_some_iff.1 hg
    exact get_eq_some_iff.2 ⟨mem_delete.2 ⟨hr, by simpa using hp⟩, hk⟩

/-! ### Counting -/

/-- The number of rows a condition selects. -/
def count (t : Table R K keys) (p : R → Bool) : ℕ := t.rows.countP p

theorem count_insert_of_free (h : t.Free r) (p : R → Bool) :
    (t.insert r).count p = t.count p + if p r then 1 else 0 := by
  rw [count, rows_insert_of_free h, countP_append]
  simp [count, countP_cons]

theorem count_of_insertAll?
    (h : t.insertAll? rs = some t') (p : R → Bool) : t'.count p = t.count p + rs.countP p := by
  rw [count, rows_of_insertAll? h, countP_append, count]

omit [DecidableEq K] in
/-- An update that the condition does not notice leaves the count alone. -/
theorem count_update {f : R → R} (hf : ∀ r, keys (f r) = keys r) (hq : ∀ r, q (f r) = q r) :
    (t.update p f hf).count q = t.count q := by
  simp only [count, update, countP_map, Function.comp_def]
  congr 1
  funext r
  split
  · exact hq r
  · rfl

omit [DecidableEq K] in
theorem count_delete :
    (t.delete p).count q + t.count (fun r ↦ p r && q r) = t.count q := by
  simp only [count, delete, countP_filter]
  induction t.rows with
  | nil => rfl
  | cons r rs ih =>
    simp only [countP_cons]
    cases p r <;> cases q r <;> simp <;> omega

/-- A key selects at most one row. -/
theorem count_key (hp : ∀ r, p r = true ↔ k ∈ keys r) :
    t.count p = if (t.get k).isSome then 1 else 0 := by
  obtain ⟨rows, hu⟩ := t
  simp only [count, get]
  induction rows with
  | nil => rfl
  | cons r rs ih =>
    rw [flatMap_cons] at hu
    by_cases hk : k ∈ keys r
    · have hzero : rs.countP p = 0 := by
        refine countP_eq_zero.2 fun r' hr' hk' ↦ ?_
        exact disjoint_of_nodup_append hu hk (mem_flatMap.2 ⟨r', hr', (hp r').1 hk'⟩)
      simp [hk, hzero, (hp r).2 hk]
    · have hpr : p r = false := by simpa using mt (hp r).1 hk
      simpa [hk, hpr] using ih hu.of_append_right

omit [DecidableEq K] in
theorem count_delete_le : (t.delete p).count q ≤ t.count q :=
  List.Sublist.countP_le filter_sublist

end Table

end Relational
