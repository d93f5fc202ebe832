import Mathlib.Data.List.Basic
import Mathlib.Data.Set.Insert

/-!
# Keys of unordered pairs

Two words, the smaller one first, with a separator between them. If the separator occurs in neither
word, the key says which two words they were, and nothing about their order (`pair_eq_pair_iff`).
Renaming letters in a way that keeps their order commutes with making the key (`map_pair`), so that
two sides that encode letters differently agree on the keys.
-/

namespace PairKey

open List

variable {α β : Type*} [LT α] [LT β] {sep : α} {a b c d : List α} {f : α → β}

/-- Words are compared letter by letter. -/
theorem map_lt_map_iff (hf : ∀ x y, f x < f y ↔ x < y) (hinj : Function.Injective f) :
    a.map f < b.map f ↔ a < b := by
  induction a generalizing b with
  | nil => cases b <;> simp
  | cons x a ih =>
    cases b with
    | nil => simp
    | cons y b =>
      rw [map_cons, map_cons, cons_lt_cons_iff, cons_lt_cons_iff, hf, ih,
        hinj.eq_iff]

variable [DecidableEq α] [DecidableLT α]

/-- The smaller word, the separator, the other word. -/
def pair (sep : α) (a b : List α) : List α := if b < a then b ++ sep :: a else a ++ sep :: b

theorem mem_pair {x : α} : x ∈ pair sep a b ↔ x = sep ∨ x ∈ a ∨ x ∈ b := by
  unfold pair
  split <;> simp only [mem_append, mem_cons] <;> tauto

section Order

variable [Std.Asymm (α := α) (· < ·)] [Std.Trichotomous (α := α) (· < ·)]

theorem pair_comm (sep : α) (a b : List α) : pair sep a b = pair sep b a := by
  by_cases hab : a < b
  · rw [pair, if_neg (List.lt_asymm hab), pair, if_pos hab]
  · by_cases hba : b < a
    · rw [pair, if_pos hba, pair, if_neg hab]
    · rw [List.le_antisymm (List.not_lt.1 hba) (List.not_lt.1 hab)]

/-- **A key names its two words.** -/
theorem pair_eq_pair_iff (ha : sep ∉ a) (hb : sep ∉ b) :
    pair sep a b = pair sep c d ↔ ({a, b} : Set (List α)) = {c, d} := by
  rw [Set.pair_eq_pair_iff]
  constructor
  · intro h
    unfold pair at h
    split_ifs at h
    · obtain ⟨h₁, -, h₂⟩ := (append_cons_inj_of_notMem hb ha).1 h
      exact .inl ⟨h₂, h₁⟩
    · obtain ⟨h₁, -, h₂⟩ := (append_cons_inj_of_notMem hb ha).1 h
      exact .inr ⟨h₂, h₁⟩
    · obtain ⟨h₁, -, h₂⟩ := (append_cons_inj_of_notMem ha hb).1 h
      exact .inr ⟨h₁, h₂⟩
    · obtain ⟨h₁, -, h₂⟩ := (append_cons_inj_of_notMem ha hb).1 h
      exact .inl ⟨h₁, h₂⟩
  · rintro (⟨rfl, rfl⟩ | ⟨rfl, rfl⟩)
    · rfl
    · exact pair_comm sep a b

end Order

section Map

variable [DecidableEq β] [DecidableLT β]

/-- **Letters may be renamed.** -/
theorem map_pair (hf : ∀ x y, f x < f y ↔ x < y) (hinj : Function.Injective f) :
    (pair sep a b).map f = pair (f sep) (a.map f) (b.map f) := by
  by_cases h : b < a
  · rw [pair, if_pos h, pair, if_pos ((map_lt_map_iff hf hinj).2 h), map_append, map_cons]
  · rw [pair, if_neg h, pair, if_neg (mt (map_lt_map_iff hf hinj).1 h), map_append, map_cons]

end Map

end PairKey
