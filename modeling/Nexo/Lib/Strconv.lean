import Mathlib.Data.Nat.Digits.Defs

/-!
# Decimal text of machine integers

The base-10 conversions of a 64-bit signed integer to text and back: `formatInt` writes the shortest
spelling, `parseInt` reads an optional sign and at least one digit and rejects what does not fit.
Every number that fits is read back from its spelling (`parseInt_formatInt`).
-/

namespace Strconv

open List

/-- The value of a non-empty list of decimal digits. -/
def parseUint (cs : List Char) : Option ℕ :=
  if cs ≠ [] ∧ cs.all Char.isDigit then some (Nat.ofDigitChars 10 cs 0) else none

/-- `strconv.ParseInt(s, 10, 64)` without its error: the range is that of a signed 64-bit word. -/
def parseInt (s : String) : Option Int :=
  match s.toList with
  | '-' :: cs => (parseUint cs).bind fun n ↦ if n ≤ 2 ^ 63 then some (-n) else none
  | '+' :: cs => (parseUint cs).bind fun n ↦ if n < 2 ^ 63 then some n else none
  | cs => (parseUint cs).bind fun n ↦ if n < 2 ^ 63 then some n else none

/-- `strconv.FormatInt(n, 10)` -/
def formatInt (n : Int) : String :=
  String.ofList ((if n < 0 then ['-'] else []) ++ Nat.toDigits 10 n.natAbs)

/-- The integers a signed 64-bit word holds. -/
def Fits (n : Int) : Prop := -2 ^ 63 ≤ n ∧ n < 2 ^ 63

theorem isDigit_of_mem_digits {n : ℕ} {c : Char} (h : c ∈ Nat.toDigits 10 n) : c.isDigit = true :=
  Nat.isDigit_of_mem_toDigits (by decide) (by decide) h

theorem parseUint_toDigits (n : ℕ) : parseUint (Nat.toDigits 10 n) = some n := by
  have hne : Nat.toDigits 10 n ≠ [] := Nat.toDigits_ne_nil
  have hall : (Nat.toDigits 10 n).all Char.isDigit := by
    simpa using fun c hc ↦ isDigit_of_mem_digits hc
  rw [parseUint, if_pos ⟨hne, hall⟩, Nat.ofDigitChars_toDigits (by decide) (by decide)]

/-- The first character of a spelling without sign is a digit, so it is not taken for a sign. -/
theorem exists_toDigits_eq_cons (n : ℕ) :
    ∃ c cs, Nat.toDigits 10 n = c :: cs ∧ c ≠ '-' ∧ c ≠ '+' := by
  rcases h : Nat.toDigits 10 n with - | ⟨c, cs⟩
  · exact absurd h Nat.toDigits_ne_nil
  · have hc : c.isDigit = true := isDigit_of_mem_digits (n := n) (by simp [h])
    refine ⟨c, cs, rfl, ?_, ?_⟩ <;> rintro rfl <;> simp at hc

variable {n : Int}

/-- **Round trip.** -/
theorem parseInt_formatInt (h : Fits n) : parseInt (formatInt n) = some n := by
  obtain ⟨hlo, hhi⟩ := h
  unfold parseInt formatInt
  rw [String.toList_ofList]
  by_cases hn : n < 0
  · have hle : n.natAbs ≤ 2 ^ 63 := by omega
    simp only [hn, if_true, singleton_append, parseUint_toDigits, Option.bind_some]
    rw [if_pos hle]
    congr 1
    omega
  · have hlt : n.natAbs < 2 ^ 63 := by omega
    obtain ⟨c, cs, hcs, hm, hp⟩ := exists_toDigits_eq_cons n.natAbs
    have hparse := parseUint_toDigits n.natAbs
    simp only [hn, if_false, nil_append]
    rw [hcs] at hparse ⊢
    split
    · next heq => exact absurd (cons.inj heq).1 hm
    · next heq => exact absurd (cons.inj heq).1 hp
    · rw [hparse, Option.bind_some, if_pos hlt]
      congr 1
      omega

/-- A spelling is made of digits and at most a minus sign. -/
theorem mem_formatInt {c : Char} (h : c ∈ (formatInt n).toList) :
    c.isDigit = true ∨ c = '-' := by
  rw [formatInt, String.toList_ofList, mem_append] at h
  rcases h with h | h
  · split at h <;> simp_all
  · exact .inl (isDigit_of_mem_digits h)

theorem toNat_lt_of_mem_formatInt {c : Char} (h : c ∈ (formatInt n).toList) : c.toNat < 58 := by
  rcases mem_formatInt h with hdigit | rfl
  · rw [Char.isDigit, Bool.and_eq_true, decide_eq_true_eq, decide_eq_true_eq] at hdigit
    exact Nat.lt_succ_of_le (UInt32.le_iff_toNat_le.1 hdigit.2)
  · decide

/-- **Spellings differ**, also those of integers that do not fit. -/
theorem formatInt_injective : Function.Injective formatInt := by
  intro m n h
  rw [formatInt, formatInt, String.ofList_inj] at h
  obtain ⟨c, cs, hm, hcm, -⟩ := exists_toDigits_eq_cons m.natAbs
  obtain ⟨d, ds, hn, hdn, -⟩ := exists_toDigits_eq_cons n.natAbs
  have habs : ∀ {k l : ℕ}, Nat.toDigits 10 k = Nat.toDigits 10 l → k = l := fun {k l} hkl ↦
    Option.some.inj ((parseUint_toDigits k).symm.trans ((congrArg parseUint hkl).trans (parseUint_toDigits l)))
  split_ifs at h with hneg hneg' hneg'
  · have := habs (append_cancel_left h)
    omega
  · rw [hn] at h
    exact absurd (cons.inj h).1.symm hdn
  · rw [hm] at h
    exact absurd (cons.inj h).1 hcm
  · have := habs (append_cancel_left h)
    omega

theorem fits_of_parseInt {s : String} (h : parseInt s = some n) : Fits n := by
  unfold parseInt at h
  split at h
  all_goals
    obtain ⟨k, -, hk⟩ := Option.bind_eq_some_iff.1 h
    split_ifs at hk with hle
    cases hk
    constructor <;> omega

/-- At most 19 digits and a sign. -/
theorem length_formatInt_le (h : Fits n) : (formatInt n).length ≤ 20 := by
  have habs : n.natAbs < 10 ^ 19 := by
    obtain ⟨hlo, hhi⟩ := h
    omega
  have hdigits := (Nat.length_toDigits_le_iff (by decide) (by decide)).2 habs
  rw [formatInt, String.length_ofList, length_append]
  split_ifs <;> simp only [length_cons, length_nil] <;> omega

end Strconv
