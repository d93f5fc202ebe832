import Mathlib.Data.List.Basic

/-!
# Byte strings

Strings as sequences of bytes, with the functions on them that message formats are made of: joining
with a separator, cutting at one, and hexadecimal text. A separator that occurs in no part keeps the
parts apart (`join_injective`), and hexadecimal text is read back (`hex_injective`).
-/

open List

abbrev Bytes := List UInt8

namespace Bytes

/-- Byte strings are compared byte by byte. -/
instance instLawfulBEqBytes : LawfulBEq Bytes := inferInstanceAs (LawfulBEq (List UInt8))

/-- The bytes of an ASCII text. -/
def ascii (s : String) : Bytes := s.toList.map Char.toUInt8

/-- `strings.Join`, with a separator of one byte. -/
def join (sep : UInt8) (parts : List Bytes) : Bytes := [sep].intercalate parts

variable {sep : UInt8} {x : Bytes}

theorem join_injective {xs ys : List Bytes} (hxs : xs ≠ []) (hys : ys ≠ []) (hx : ∀ x ∈ xs, sep ∉ x)
    (hy : ∀ y ∈ ys, sep ∉ y) (h : join sep xs = join sep ys) : xs = ys := by
  rw [← splitOn_intercalate sep hx hxs, ← splitOn_intercalate sep hy hys]
  exact congrArg (splitOn sep) h

/-- `strings.Cut` at a separator of one byte: what is before its first occurrence and what is after.
-/
def cut (sep : UInt8) : Bytes → Bytes × Bytes
  | [] => ([], [])
  | b :: s => if b = sep then ([], s) else (b :: (cut sep s).1, (cut sep s).2)

theorem cut_append (h : sep ∉ x) (y : Bytes) :
    cut sep (x ++ y) = (x ++ (cut sep y).1, (cut sep y).2) := by
  induction x with
  | nil => rfl
  | cons b x ih =>
    obtain ⟨hb, hx⟩ := not_or.1 (mem_cons.not.1 h)
    rw [cons_append, cut, if_neg (Ne.symm hb), ih hx]
    rfl

theorem cut_append_sep (h : sep ∉ x) (y : Bytes) :
    cut sep (x ++ sep :: y) = (x, y) := by
  rw [cut_append h, cut, if_pos rfl, append_nil]

theorem cut_of_notMem (h : sep ∉ x) : cut sep x = (x, []) := by
  have hcut := cut_append h []
  rwa [append_nil, cut, append_nil] at hcut

/-- A separator that does not occur in the last parts keeps the parts apart, whatever the first are.
-/
theorem append_sep_injective {x' y y' : Bytes} (hy : sep ∉ y) (hy' : sep ∉ y')
    (h : x ++ sep :: y = x' ++ sep :: y') : x = x' ∧ y = y' := by
  have hcut : (y.reverse, x.reverse) = (y'.reverse, x'.reverse) := by
    rw [← cut_append_sep (mem_reverse.not.2 hy), ← cut_append_sep (mem_reverse.not.2 hy')]
    refine congrArg (cut sep) ?_
    simpa using congrArg reverse h
  obtain ⟨hlast, hfirst⟩ := Prod.mk.inj hcut
  exact ⟨reverse_injective hfirst, reverse_injective hlast⟩

/-- A text of characters below 256 is read back. -/
theorem ascii_injOn {s t : String} (hs : ∀ c ∈ s.toList, c.toNat < 256)
    (ht : ∀ c ∈ t.toList, c.toNat < 256) (h : ascii s = ascii t) : s = t := by
  have hback : ∀ s : String, (∀ c ∈ s.toList, c.toNat < 256) →
      (ascii s).map (fun b ↦ Char.ofNat b.toNat) = s.toList := by
    intro s hs
    rw [ascii, map_map]
    conv_rhs => rw [← map_id s.toList]
    refine map_congr_left fun c hc ↦ ?_
    have hmod : c.toUInt8.toNat = c.toNat := Nat.mod_eq_of_lt (hs c hc)
    rw [Function.comp_apply, hmod, Char.ofNat_toNat]
    rfl
  exact String.toList_injective ((hback s hs).symm.trans ((congrArg _ h).trans (hback t ht)))

/-! ### Hexadecimal text -/

/-- A digit, below 16, in lower case. -/
def hexDigit (n : UInt8) : UInt8 := if n < 10 then 0x30 + n else 0x57 + n

/-- `hex.EncodeToString` -/
def hex (s : Bytes) : Bytes := s.flatMap fun b ↦ [hexDigit (b / 16), hexDigit (b % 16)]

/-- The value of a digit. -/
def hexValue (c : UInt8) : UInt8 := if c < 0x3a then c - 0x30 else c - 0x57

theorem forall_byte {P : UInt8 → Prop} (h : ∀ n : Fin 256, P (.ofNat n)) (b : UInt8) : P b := by
  simpa using h ⟨b.toNat, b.toNat_lt⟩

theorem hexValue_hexDigits (b : UInt8) :
    hexValue (hexDigit (b / 16)) * 16 + hexValue (hexDigit (b % 16)) = b := by
  revert b
  exact forall_byte (by decide +kernel)

theorem hex_injective {s t : Bytes} (h : hex s = hex t) : s = t := by
  induction s generalizing t with
  | nil =>
    cases t with
    | nil => rfl
    | cons b t => simp [hex] at h
  | cons a s ih =>
    cases t with
    | nil => simp [hex] at h
    | cons b t =>
      simp only [hex, flatMap_cons, cons_append, nil_append, cons.injEq] at h
      obtain ⟨hhi, hlo, hrest⟩ := h
      rw [← hexValue_hexDigits a, hhi, hlo, hexValue_hexDigits b, ih hrest]

/-- Hexadecimal text is made of digits and letters. -/
theorem le_of_mem_hex {s : Bytes} {b : UInt8} (h : b ∈ hex s) : 0x30 ≤ b := by
  obtain ⟨a, -, hb⟩ := mem_flatMap.1 h
  have hdigits : 0x30 ≤ hexDigit (a / 16) ∧ 0x30 ≤ hexDigit (a % 16) := by
    revert a
    exact fun a _ ↦ forall_byte
      (P := fun a ↦ 0x30 ≤ hexDigit (a / 16) ∧ 0x30 ≤ hexDigit (a % 16)) (by decide +kernel) a
  simp only [mem_cons, not_mem_nil, or_false] at hb
  rcases hb with rfl | rfl
  · exact hdigits.1
  · exact hdigits.2

end Bytes
