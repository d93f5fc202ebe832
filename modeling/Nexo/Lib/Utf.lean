import Mathlib.Data.String.Basic

/-!
# UTF-8 and UTF-16

Texts as the bytes and as the 16-bit units that encode them. A byte below 128 stands for itself and
occurs in no other character (`le_of_mem_utf8EncodeChar`), so that ASCII separators and prefixes of
a text can be found among its bytes; and bytes are ordered as the characters are
(`flatMap_utf8EncodeChar_lt_iff`). The units of UTF-16 are not, but those of ASCII text are its
bytes (`utf16_of_ascii`).
-/

namespace Utf

open String List

/-! ### UTF-8 -/

theorem utf8EncodeChar_of_ascii {c : Char} (h : c.toNat ≤ 127) :
    utf8EncodeChar c = [UInt8.ofNat c.toNat] := if_pos h

/-- The bytes of other characters are not ASCII. -/
theorem le_of_mem_utf8EncodeChar {c : Char} {b : UInt8} (h : 127 < c.toNat)
    (hb : b ∈ utf8EncodeChar c) : 128 ≤ b.toNat := by
  have hofNat {n : ℕ} (hlo : 128 ≤ n) (hhi : n < 256) (heq : b = UInt8.ofNat n) : 128 ≤ b.toNat := by
    rw [heq, UInt8.toNat_ofNat_of_lt' hhi]
    exact hlo
  have hval : c.toNat = c.val.toNat := rfl
  unfold utf8EncodeChar at hb
  simp only at hb
  rw [if_neg (by omega)] at hb
  split at hb
  · simp only [mem_cons, not_mem_nil, or_false] at hb
    rcases hb with hb | hb
    all_goals exact hofNat (by omega) (by omega) hb
  · split at hb
    · simp only [mem_cons, not_mem_nil, or_false] at hb
      rcases hb with hb | hb | hb
      all_goals exact hofNat (by omega) (by omega) hb
    · simp only [mem_cons, not_mem_nil, or_false] at hb
      rcases hb with hb | hb | hb | hb
      all_goals exact hofNat (by omega) (by omega) hb

/-- Bytes are compared as their numbers. -/
theorem ofNat_cons_lt_iff {m n : ℕ} (hm : m < 256) (hn : n < 256) {xs ys : List UInt8} :
    UInt8.ofNat m :: xs < UInt8.ofNat n :: ys ↔ m < n ∨ m = n ∧ xs < ys := by
  rw [cons_lt_cons_iff, UInt8.lt_iff_toNat_lt, ← UInt8.toNat_inj, UInt8.toNat_ofNat_of_lt' hm,
    UInt8.toNat_ofNat_of_lt' hn]

/-- The digits of a number in base 64, as far as a character has them. -/
theorem eq_digits {n : ℕ} (h : n < 0x110000) :
    n = n / 262144 % 8 * 262144 + n / 4096 % 64 * 4096 + n / 64 % 64 * 64 + n % 64 := by
  omega

/-- **The first character that differs decides**, whatever follows it. -/
theorem utf8EncodeChar_append_lt {c d : Char} (h : c < d) (xs ys : List UInt8) :
    utf8EncodeChar c ++ xs < utf8EncodeChar d ++ ys := by
  have hlt : c.val.toNat < d.val.toNat := UInt32.lt_iff_toNat_lt.1 (Char.lt_def.1 h)
  have hmax : d.val.toNat < 0x110000 := by
    rcases d.valid with hd | ⟨-, hd⟩
    · exact lt_trans hd (by decide)
    · exact hd
  unfold utf8EncodeChar
  generalize c.val.toNat = v at hlt
  generalize d.val.toNat = w at hlt hmax
  simp only
  -- a longer spelling starts with a greater byte; spellings of one length are compared digit by digit
  split_ifs
  all_goals
    simp only [cons_append, nil_append]
    rw [ofNat_cons_lt_iff (by omega) (by omega)]
  all_goals try exact .inl (by omega)
  · rw [ofNat_cons_lt_iff (by omega) (by omega)]
    omega
  · rw [ofNat_cons_lt_iff (by omega) (by omega), ofNat_cons_lt_iff (by omega) (by omega)]
    omega
  · rw [ofNat_cons_lt_iff (by omega) (by omega), ofNat_cons_lt_iff (by omega) (by omega),
      ofNat_cons_lt_iff (by omega) (by omega)]
    have hv := eq_digits (hlt.trans hmax)
    have hw := eq_digits hmax
    generalize v / 262144 % 8 = v₃ at *
    generalize w / 262144 % 8 = w₃ at *
    have hdigits : ∀ n, n / 4096 % 64 < 64 ∧ n / 64 % 64 < 64 ∧ n % 64 < 64 := by omega
    obtain ⟨hv₂, hv₁, hv₀⟩ := hdigits v
    obtain ⟨hw₂, hw₁, hw₀⟩ := hdigits w
    generalize v / 4096 % 64 = v₂ at *
    generalize w / 4096 % 64 = w₂ at *
    generalize v / 64 % 64 = v₁ at *
    generalize w / 64 % 64 = w₁ at *
    generalize v % 64 = v₀ at *
    generalize w % 64 = w₀ at *
    omega

theorem flatMap_utf8EncodeChar_lt {cs ds : List Char} (h : cs < ds) :
    cs.flatMap utf8EncodeChar < ds.flatMap utf8EncodeChar := by
  induction cs generalizing ds with
  | nil =>
    cases ds with
    | nil => exact absurd h (lt_irrefl _)
    | cons d ds =>
      obtain ⟨b, bs, hb⟩ := exists_cons_of_ne_nil (utf8EncodeChar_ne_nil (c := d))
      rw [flatMap_nil, flatMap_cons, hb]
      exact nil_lt_cons _ _
  | cons c cs ih =>
    cases ds with
    | nil => exact absurd h (not_lt_nil _)
    | cons d ds =>
      rw [flatMap_cons, flatMap_cons]
      rcases cons_lt_cons_iff.1 h with hlt | ⟨rfl, hlt⟩
      · exact utf8EncodeChar_append_lt hlt _ _
      · exact append_left_lt (ih hlt)

/-- **Bytes are ordered as characters are.** -/
theorem flatMap_utf8EncodeChar_lt_iff {cs ds : List Char} :
    cs.flatMap utf8EncodeChar < ds.flatMap utf8EncodeChar ↔ cs < ds := by
  refine ⟨fun h ↦ ?_, flatMap_utf8EncodeChar_lt⟩
  rcases Std.lt_trichotomy cs ds with hlt | rfl | hgt
  · exact hlt
  · exact absurd h (List.lt_irrefl _)
  · exact absurd h (List.lt_asymm (flatMap_utf8EncodeChar_lt hgt))

/-! ### UTF-16 -/

/-- The units of a character: one, or a surrogate pair. -/
def utf16EncodeChar (c : Char) : List UInt16 :=
  if c.toNat < 0x10000 then [.ofNat c.toNat]
  else [.ofNat (0xd800 + (c.toNat - 0x10000) / 0x400), .ofNat (0xdc00 + (c.toNat - 0x10000) % 0x400)]

/-- The units of a text. -/
def utf16 (s : String) : List UInt16 := s.toList.flatMap utf16EncodeChar

theorem utf16_of_ascii {s : String} (h : ∀ c ∈ s.toList, c.toNat ≤ 127) :
    utf16 s = (s.toList.flatMap utf8EncodeChar).map UInt8.toUInt16 := by
  rw [utf16, map_flatMap]
  refine flatMap_congr fun c hc ↦ ?_
  have hlt : c.toNat < 0x10000 := Nat.lt_of_le_of_lt (h c hc) (by decide)
  rw [utf8EncodeChar_of_ascii (h c hc), utf16EncodeChar, if_pos hlt, map_singleton]
  congr 1
  refine UInt16.toNat_inj.1 ?_
  rw [UInt8.toNat_toUInt16, UInt16.toNat_ofNat_of_lt' hlt,
    UInt8.toNat_ofNat_of_lt' (Nat.lt_of_le_of_lt (h c hc) (by decide))]

end Utf
