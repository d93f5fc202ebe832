import Nexo.Lib.Bytes
import Nexo.Lib.Strconv
import Mathlib.Algebra.BigOperators.Group.List.Basic

/-!
# JSON texts and their length

What `json.Marshal` of `encoding/json/v2` writes, as bytes: strings with the escapes that JSON
demands and no others, integers in decimal, objects and arrays without white space. A string that is
not valid UTF-8 cannot be written.

How long a text is follows from its parts exactly (`length_object`, `length_array`): every member is
followed by one byte, a comma or the closing bracket. For a string it depends on what is escaped: a
character takes at most six bytes (`length_string_le`), a plain one takes one (`length_string`).
-/

namespace Json

open Bytes List

/-! ### Strings -/

/-- What is written for a byte: the short escapes, `\u00xx` for the other control characters, and
the byte itself, which covers the bytes of a character that is not ASCII. -/
def escape (b : UInt8) : Bytes :=
  if b = 0x22 ∨ b = 0x5c then [0x5c, b]
  else if b = 0x08 then [0x5c, 0x62]
  else if b = 0x09 then [0x5c, 0x74]
  else if b = 0x0a then [0x5c, 0x6e]
  else if b = 0x0c then [0x5c, 0x66]
  else if b = 0x0d then [0x5c, 0x72]
  else if b < 0x20 then [0x5c, 0x75, 0x30, 0x30, hexDigit (b / 16), hexDigit (b % 16)]
  else [b]

def quote (s : Bytes) : Bytes := 0x22 :: (s.flatMap escape ++ [0x22])

/-- A string as Go has it, any bytes; nothing when they are not valid UTF-8. -/
def quoted (s : Bytes) : Option Bytes :=
  if s.toByteArray.validateUTF8 then some (quote s) else none

/-- The bytes of a text. -/
def bytesOf (s : String) : Bytes := s.toList.flatMap String.utf8EncodeChar

def string (s : String) : Bytes := quote (bytesOf s)

theorem quoted_bytesOf (s : String) : quoted (bytesOf s) = some (string s) := by
  have hbytes : (bytesOf s).toByteArray = s.toByteArray := String.utf8Encode_toList
  rw [quoted, hbytes, if_pos (ByteArray.validateUTF8_eq_true_iff.2 s.isValidUTF8)]
  rfl

theorem length_escape_le (b : UInt8) : (escape b).length ≤ 6 := by
  revert b
  exact forall_byte (by decide +kernel)

/-- The bytes that stand for themselves. -/
def Plain (b : UInt8) : Prop := 0x20 ≤ b ∧ b ≠ 0x22 ∧ b ≠ 0x5c

instance : DecidablePred Plain := fun _ ↦ inferInstanceAs (Decidable (_ ∧ _))

theorem escape_of_plain {b : UInt8} (h : Plain b) : escape b = [b] := by
  revert b
  exact fun {b} ↦ forall_byte (P := fun b ↦ Plain b → escape b = [b]) (by decide +kernel) b

theorem plain_of_le {b : UInt8} (h : 0x80 ≤ b) : Plain b := by
  revert b
  exact fun {b} ↦ forall_byte (P := fun b ↦ 0x80 ≤ b → Plain b) (by decide +kernel) b

theorem length_quote (s : Bytes) : (quote s).length = (s.flatMap escape).length + 2 := by
  simp [quote]

theorem flatMap_escape_of_plain {s : Bytes} (h : ∀ b ∈ s, Plain b) : s.flatMap escape = s := by
  induction s with
  | nil => rfl
  | cons b s ih =>
    rw [flatMap_cons, escape_of_plain (h b (mem_cons_self ..)),
      ih fun b' hb' ↦ h b' (mem_cons_of_mem _ hb')]
    rfl

/-- The bytes of a character are one, which may be escaped, or up to four that are not. -/
theorem length_escape_utf8EncodeChar (c : Char) :
    ((String.utf8EncodeChar c).flatMap escape).length ≤ 6 := by
  have hhigh : ∀ n : ℕ, n < 128 → Plain (UInt8.ofNat (n + 128)) := by
    intro n hn
    refine plain_of_le (UInt8.le_iff_toNat_le.2 ?_)
    rw [UInt8.toNat_ofNat_of_lt' (show n + 128 < 256 by omega)]
    exact Nat.le_add_left _ _
  have hplain : ∀ l : Bytes, l.length ≤ 6 → (∀ b ∈ l, Plain b) → (l.flatMap escape).length ≤ 6 := by
    intro l hlen hl
    rwa [flatMap_escape_of_plain hl]
  unfold String.utf8EncodeChar
  dsimp only
  split_ifs
  · simpa using length_escape_le _
  all_goals
    refine hplain _ (by simp) ?_
    simp only [mem_cons, not_mem_nil, or_false, forall_eq_or_imp, forall_eq]
  · exact ⟨hhigh (_ + 64) (by omega), hhigh _ (by omega)⟩
  · exact ⟨hhigh (_ + 96) (by omega), hhigh _ (by omega), hhigh _ (by omega)⟩
  · exact ⟨hhigh (_ + 112) (by omega), hhigh _ (by omega), hhigh _ (by omega), hhigh _ (by omega)⟩

/-- **A character takes at most six bytes.** -/
theorem length_string_le (s : String) : (string s).length ≤ 6 * s.length + 2 := by
  have hchars : ∀ l : List Char,
      ((l.flatMap String.utf8EncodeChar).flatMap escape).length ≤ 6 * l.length := by
    intro l
    induction l with
    | nil => exact le_rfl
    | cons c l ih =>
      rw [flatMap_cons, flatMap_append, length_append, length_cons]
      have hc := length_escape_utf8EncodeChar c
      omega
  have h := hchars s.toList
  rw [String.length_toList] at h
  rw [string, length_quote, bytesOf]
  omega

/-- A character of one byte that stands for itself. -/
def PlainChar (c : Char) : Prop := 0x20 ≤ c.toNat ∧ c.toNat < 0x80 ∧ c ≠ '"' ∧ c ≠ '\\'

instance : DecidablePred PlainChar := fun _ ↦ inferInstanceAs (Decidable (_ ∧ _))

theorem escape_of_plainChar {c : Char} (h : PlainChar c) :
    (String.utf8EncodeChar c).flatMap escape = [UInt8.ofNat c.toNat] := by
  obtain ⟨hlo, hhi, hquote, hslash⟩ := h
  have hcode : ∀ n : ℕ, n < 256 → ∀ m : ℕ, m < 256 → UInt8.ofNat n = UInt8.ofNat m → n = m := by
    intro n hn m hm heq
    have htoNat := congrArg UInt8.toNat heq
    rwa [UInt8.toNat_ofNat_of_lt' hn, UInt8.toNat_ofNat_of_lt' hm] at htoNat
  have hval : c.val.toNat ≤ 127 := Nat.le_of_lt_succ hhi
  rw [String.utf8EncodeChar, if_pos hval]
  refine flatMap_escape_of_plain fun b hb ↦ ?_
  obtain rfl := mem_singleton.1 hb
  refine ⟨UInt8.le_iff_toNat_le.2 ?_, fun heq ↦ hquote ?_, fun heq ↦ hslash ?_⟩
  · rw [UInt8.toNat_ofNat_of_lt' (show c.val.toNat < 256 by omega)]
    exact hlo
  · exact Char.toNat_inj.1 (hcode _ (by omega) 0x22 (by decide) heq)
  · exact Char.toNat_inj.1 (hcode _ (by omega) 0x5c (by decide) heq)

/-- **A plain text takes its length and two quotes.** -/
theorem length_string {s : String} (h : ∀ c ∈ s.toList, PlainChar c) :
    (string s).length = s.length + 2 := by
  have hchars : ∀ l : List Char, (∀ c ∈ l, PlainChar c) →
      ((l.flatMap String.utf8EncodeChar).flatMap escape).length = l.length := by
    intro l hl
    induction l with
    | nil => rfl
    | cons c l ih =>
      rw [flatMap_cons, flatMap_append, length_append,
        escape_of_plainChar (hl c (mem_cons_self ..)),
        ih fun c' hc' ↦ hl c' (mem_cons_of_mem _ hc'), length_cons]
      exact Nat.add_comm _ _
  rw [string, length_quote, bytesOf, hchars _ h, String.length_toList]

/-! ### Integers -/

def int (n : Int) : Bytes := ascii (Strconv.formatInt n)

theorem length_int_le {n : Int} (h : Strconv.Fits n) : (int n).length ≤ 20 := by
  rw [int, ascii, length_map, String.length_toList]
  exact Strconv.length_formatInt_le h

/-! ### Objects and arrays -/

/-- Every part of a join is followed by one byte, but for the last. -/
theorem length_join_add_one (sep : UInt8) {parts : List Bytes} (h : parts ≠ []) :
    (join sep parts).length + 1 = (parts.map fun p ↦ p.length + 1).sum := by
  induction parts with
  | nil => exact absurd rfl h
  | cons p parts ih =>
    cases parts with
    | nil => simp [join, intercalate]
    | cons q parts =>
      have hq := ih (cons_ne_nil _ _)
      have hjoin : join sep (p :: q :: parts) = p ++ sep :: join sep (q :: parts) := by
        simp [join, intercalate]
      rw [hjoin, length_append, length_cons, map_cons, sum_cons, ← hq]
      omega

/-- An object: the names of its members, and their texts. -/
def object (members : List (String × Bytes)) : Bytes :=
  0x7b :: (join 0x2c (members.map fun m ↦ string m.1 ++ 0x3a :: m.2) ++ [0x7d])

def array (items : List Bytes) : Bytes := 0x5b :: (join 0x2c items ++ [0x5d])

/-- What a member takes, with the colon and what follows it. -/
def cost (m : String × Bytes) : ℕ := (string m.1).length + m.2.length + 2

theorem length_object {members : List (String × Bytes)} (h : members ≠ []) :
    (object members).length = 1 + (members.map cost).sum := by
  have hjoin := length_join_add_one 0x2c
    (show members.map (fun m ↦ string m.1 ++ 0x3a :: m.2) ≠ [] by simpa using h)
  have hcost : (members.map cost).sum =
      ((members.map fun m ↦ string m.1 ++ 0x3a :: m.2).map fun p ↦ p.length + 1).sum := by
    rw [map_map]
    refine congrArg sum (map_congr_left fun m _ ↦ ?_)
    simp only [cost, Function.comp_apply, length_append, length_cons]
    omega
  rw [object, hcost, ← hjoin, length_cons, length_append]
  simp only [length_cons, length_nil]
  omega

theorem length_array {items : List Bytes} (h : items ≠ []) :
    (array items).length = 1 + (items.map fun i ↦ i.length + 1).sum := by
  rw [array, ← length_join_add_one 0x2c h, length_cons, length_append]
  simp only [length_cons, length_nil]
  omega

/-- A member with `omitempty` whose value is a string. -/
def omitEmpty (name value : String) : List (String × Bytes) :=
  if value = "" then [] else [(name, string value)]

theorem cost_omitEmpty_le (name value : String) :
    ((omitEmpty name value).map cost).sum ≤ (string name).length + (string value).length + 2 := by
  unfold omitEmpty
  split_ifs
  · exact Nat.zero_le _
  · simp [cost]

end Json
