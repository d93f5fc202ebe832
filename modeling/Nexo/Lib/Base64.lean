import Mathlib.Algebra.Group.Nat.Defs
import Mathlib.Data.List.Basic
import Mathlib.Data.List.FinRange

/-!
# Base64 without padding

Three bytes are four symbols of six bits; one or two bytes left over are two or three symbols, and
nothing fills the last group up. A decoder of this kind ignores line breaks, rejects every other
character outside the alphabet and a single symbol left over, and does not look at the unused bits
of the last symbol. So several texts may decode to one byte string, but **what was encoded is read
back** (`decode_encode`), for every alphabet.
-/

namespace Base64

open List

/-- An alphabet: sixty-four different characters, none of them a line break. -/
structure Encoding where
  symbol : Fin 64 → Char
  symbol_injective : Function.Injective symbol
  symbol_ne_break : ∀ i, symbol i ≠ '\n' ∧ symbol i ≠ '\r'

/-! ### Bytes as groups of six bits -/

/-- The six-bit groups of a byte string, from the most significant bit on. -/
def sextets : List UInt8 → List (Fin 64)
  | [] => []
  | [x] => [.ofNat 64 (x.toNat / 4), .ofNat 64 (x.toNat % 4 * 16)]
  | [x, y] =>
    [.ofNat 64 (x.toNat / 4), .ofNat 64 (x.toNat % 4 * 16 + y.toNat / 16),
      .ofNat 64 (y.toNat % 16 * 4)]
  | x :: y :: z :: rest =>
    .ofNat 64 (x.toNat / 4) :: .ofNat 64 (x.toNat % 4 * 16 + y.toNat / 16) ::
      .ofNat 64 (y.toNat % 16 * 4 + z.toNat / 64) :: .ofNat 64 (z.toNat % 64) :: sextets rest

/-- The byte that six-bit groups start in `a` and end in `b`, `k` bits of `b` being left over. -/
def joined (a b : Fin 64) (k : ℕ) : UInt8 := .ofNat (a * (64 / 2 ^ k) + b / 2 ^ k)

/-- The byte string of six-bit groups. -/
def unsextets : List (Fin 64) → Option (List UInt8)
  | [] => some []
  | [_] => none
  | [a, b] => some [joined a b 4]
  | [a, b, c] => some [joined a b 4, joined b c 2]
  | a :: b :: c :: d :: rest =>
    (unsextets rest).map fun bytes ↦ joined a b 4 :: joined b c 2 :: joined c d 0 :: bytes

/-- Only the last eight bits of a joined byte count. -/
theorem joined_eq {a b : Fin 64} {k : ℕ} {x : UInt8}
    (h : ((a : ℕ) * (64 / 2 ^ k) + b / 2 ^ k) % 256 = x.toNat) : joined a b k = x := by
  rw [← UInt8.toNat_inj, joined, UInt8.toNat_ofNat', h]

theorem unsextets_sextets (bytes : List UInt8) : unsextets (sextets bytes) = some bytes := by
  fun_induction sextets bytes with
  | case1 => rfl
  | case2 x =>
    have hx := x.toNat_lt
    rw [unsextets, joined_eq]
    simp only [Fin.val_ofNat]
    omega
  | case3 x y =>
    have hx := x.toNat_lt
    have hy := y.toNat_lt
    rw [unsextets, joined_eq (x := x), joined_eq (x := y)] <;> simp only [Fin.val_ofNat] <;> omega
  | case4 x y z rest ih =>
    have hx := x.toNat_lt
    have hy := y.toNat_lt
    have hz := z.toNat_lt
    rw [unsextets, ih, Option.map_some, joined_eq (x := x), joined_eq (x := y), joined_eq (x := z)]
      <;> simp only [Fin.val_ofNat] <;> omega

/-! ### Text -/

namespace Encoding

variable (E : Encoding)

/-- The value of a character of the alphabet. -/
def value? (c : Char) : Option (Fin 64) := (List.finRange 64).find? fun i ↦ E.symbol i = c

/-- `Encoding.EncodeToString` -/
def encode (bytes : List UInt8) : String := .ofList ((sextets bytes).map E.symbol)

/-- Line breaks are skipped. -/
def isBreak (c : Char) : Bool := c = '\n' || c = '\r'

/-- `Encoding.DecodeString` without its error. -/
def decode (s : String) : Option (List UInt8) :=
  ((s.toList.filter fun c ↦ !isBreak c).mapM E.value?).bind unsextets

theorem value?_symbol (i : Fin 64) : E.value? (E.symbol i) = some i := by
  rcases h : E.value? (E.symbol i) with - | j
  · have hi := find?_eq_none.1 h i (mem_finRange i)
    simp at hi
  · have hj : E.symbol j = E.symbol i := by simpa using find?_some h
    rw [E.symbol_injective hj]

theorem isBreak_symbol (i : Fin 64) : isBreak (E.symbol i) = false := by
  simp [isBreak, E.symbol_ne_break i]

/-- **Round trip.** -/
theorem decode_encode (bytes : List UInt8) : E.decode (E.encode bytes) = some bytes := by
  have hfilter : ((sextets bytes).map E.symbol).filter (fun c ↦ !isBreak c) =
      (sextets bytes).map E.symbol :=
    filter_eq_self.2 fun c hc ↦ by
      obtain ⟨i, -, rfl⟩ := mem_map.1 hc
      rw [E.isBreak_symbol, Bool.not_false]
  have hvalues : ((sextets bytes).map E.symbol).mapM E.value? = some (sextets bytes) := by
    induction sextets bytes with
    | nil => rfl
    | cons i is ih => simp [ih, E.value?_symbol]
  rw [decode, encode, String.toList_ofList, hfilter, hvalues, Option.bind_some, unsextets_sextets]

theorem encode_ne_empty {bytes : List UInt8} (h : bytes ≠ []) : E.encode bytes ≠ "" := by
  intro he
  -- the empty text decodes to nothing
  have hdecode := E.decode_encode bytes
  rw [he] at hdecode
  exact h (Option.some.inj hdecode).symm

end Encoding

/-- The alphabet that is safe in URLs and file names. -/
def urlSymbol (i : Fin 64) : Char :=
  if i.val < 26 then Char.ofNat (65 + i) else if i.val < 52 then Char.ofNat (97 + (i - 26))
  else if i.val < 62 then Char.ofNat (48 + (i - 52)) else if i.val = 62 then '-' else '_'

/-- `base64.RawURLEncoding` -/
def rawUrl : Encoding where
  symbol := urlSymbol
  symbol_injective := fun i j ↦ by revert i j; decide +kernel
  symbol_ne_break := by decide +kernel

end Base64
