import Nexo.Lib.Strconv

/-!
# User ids

`identity`: `u___<n>` and `ag__<n>` name platform users and agents, `nx__<uuid>` a native account.
Only canonical spellings are valid, and no valid id contains the separator `:` of conversation ids.

Go indexes a string by bytes. A string that starts with one of the prefixes starts with four
one-byte characters, so dropping four characters is dropping four bytes.
-/

namespace Nexo.Identity

open List Strconv

def prefixLength : ℕ := 4

def prefixUser : String := "u___"
def prefixAgent : String := "ag__"
def prefixNative : String := "nx__"

inductive Role where
  | user
  | agent
  deriving DecidableEq

structure Actor where
  id : Int
  role : Role
  deriving DecidableEq

/-- `userId[PrefixLength:]` -/
def rest (userId : String) : String := String.ofList (userId.toList.drop prefixLength)

/-- Canonical positive 64-bit decimals only. -/
def parseDigits (role : Role) (digits : String) : Option Actor :=
  match Strconv.parseInt digits with
  | none => none
  | some id => if id ≤ 0 ∨ Strconv.formatInt id ≠ digits then none else some ⟨id, role⟩

/-- `identity.ParseActor`, without the text of its error, which no caller here reads. -/
def parseActor (userId : String) : Option Actor :=
  if userId.utf8ByteSize ≤ prefixLength then none
  else if prefixUser.toList.isPrefixOf userId.toList then parseDigits .user (rest userId)
  else if prefixAgent.toList.isPrefixOf userId.toList then parseDigits .agent (rest userId)
  else none

/-- `identity.Valid`. `uuidString s` is `uuid.Parse(s)` followed by `String()`: the canonical
spelling of the UUID that `s` spells, if it spells one. -/
def valid (uuidString : String → Option String) (userId : String) : Bool :=
  if userId.utf8ByteSize ≤ prefixLength ∨ ':' ∈ userId.toList then false
  else if prefixUser.toList.isPrefixOf userId.toList ∨ prefixAgent.toList.isPrefixOf userId.toList
  then (parseActor userId).isSome
  else if prefixNative.toList.isPrefixOf userId.toList then
    uuidString (rest userId) = some (rest userId)
  else false

variable {userId : String} {uuidString : String → Option String}

/-- **The separator is safe.** -/
theorem colon_notMem_of_valid (h : valid uuidString userId) : ':' ∉ userId.toList := by
  intro hc
  simp [valid, hc] at h

/-! ### What is accepted -/

/-- **Only the canonical spelling of a 64-bit number is read.** -/
theorem eq_formatInt_of_parseDigits {role : Role} {digits : String} {a : Actor}
    (h : parseDigits role digits = some a) : Fits a.id ∧ digits = formatInt a.id := by
  unfold parseDigits at h
  split at h
  · cases h
  next id hid =>
    split at h
    · cases h
    next hcanonical =>
      cases h
      exact ⟨fits_of_parseInt hid, (not_not.1 (not_or.1 hcanonical).2).symm⟩

/-- An id is its prefix and the rest. -/
theorem eq_append_of_isPrefixOf {pre : String} (hlen : pre.length = prefixLength)
    (h : pre.toList.isPrefixOf userId.toList = true) : userId = pre ++ rest userId := by
  obtain ⟨tail, htail⟩ := isPrefixOf_iff_prefix.1 h
  have hdrop : userId.toList.drop prefixLength = tail := by
    rw [← htail, ← hlen, ← String.length_toList, drop_left]
  rw [← String.toList_inj, String.toList_append, rest, String.toList_ofList, hdrop, htail]

/-- **What `ParseActor` accepts**: the prefix of a role and a 64-bit number. -/
theorem eq_append_of_parseActor {a : Actor} (h : parseActor userId = some a) :
    ∃ pre, (pre = prefixUser ∨ pre = prefixAgent) ∧ Fits a.id ∧ userId = pre ++ formatInt a.id := by
  have hread {pre : String} {role : Role} (hlen : pre.length = prefixLength)
      (hpre : pre.toList.isPrefixOf userId.toList = true) (hdigits : parseDigits role (rest userId) = some a) :
      Fits a.id ∧ userId = pre ++ formatInt a.id := by
    obtain ⟨hfits, heq⟩ := eq_formatInt_of_parseDigits hdigits
    exact ⟨hfits, heq ▸ eq_append_of_isPrefixOf hlen hpre⟩
  unfold parseActor at h
  split at h
  · cases h
  split at h
  next huser => exact ⟨_, .inl rfl, hread rfl huser h⟩
  next =>
    split at h
    next hagent => exact ⟨_, .inr rfl, hread rfl hagent h⟩
    next => cases h

/-- **What `Valid` accepts**: an actor, or the native prefix and what `uuid` prints as it was. -/
theorem cases_of_valid (h : valid uuidString userId = true) :
    (∃ a, parseActor userId = some a) ∨ ∃ u, userId = prefixNative ++ u ∧ uuidString u = some u := by
  unfold valid at h
  split at h
  · cases h
  split at h
  · exact .inl (Option.isSome_iff_exists.1 h)
  · split at h
    next hnative => exact .inr ⟨rest userId, eq_append_of_isPrefixOf rfl hnative, of_decide_eq_true h⟩
    next => cases h

/-! ### What a valid id looks like -/

/-- The characters of valid ids. -/
def IdChar (c : Char) : Prop := c.isAlphanum = true ∨ c = '-' ∨ c = '_'

theorem idChar_of_all {cs : List Char} (h : cs.all fun c ↦ c.isAlphanum || c == '-' || c == '_') :
    ∀ c ∈ cs, IdChar c := by
  intro c hc
  have hchar := all_eq_true.1 h c hc
  simpa [IdChar, or_assoc] using hchar

/-- Letters and digits are between `0` and `z`, and none is the backslash. -/
theorem toNat_of_isAlphanum {c : Char} (h : c.isAlphanum = true) :
    48 ≤ c.toNat ∧ c.toNat ≤ 122 ∧ c.toNat ≠ 92 := by
  have hboth {lo hi : UInt32} (hc : (decide (lo ≤ c.val) && decide (c.val ≤ hi)) = true) :
      lo ≤ c.val ∧ c.val ≤ hi := by simpa using hc
  have hrange {lo hi : UInt32} (hc : lo ≤ c.val ∧ c.val ≤ hi) :
      lo.toNat ≤ c.toNat ∧ c.toNat ≤ hi.toNat :=
    ⟨UInt32.le_iff_toNat_le.1 hc.1, UInt32.le_iff_toNat_le.1 hc.2⟩
  rcases Bool.or_eq_true_iff.1 h with halpha | hdigit
  · rcases Bool.or_eq_true_iff.1 halpha with hupper | hlower
    · obtain ⟨hlo, hhi⟩ := hrange (of_decide_eq_true hupper)
      have hA : 'A'.val.toNat = 65 ∧ 'Z'.val.toNat = 90 := by decide
      omega
    · obtain ⟨hlo, hhi⟩ := hrange (hboth hlower)
      have ha : 'a'.val.toNat = 97 ∧ 'z'.val.toNat = 122 := by decide
      omega
  · obtain ⟨hlo, hhi⟩ := hrange (hboth hdigit)
    have hzero : '0'.val.toNat = 48 ∧ '9'.val.toNat = 57 := by decide
    omega

/-- `uuid.Parse` followed by `String` gives the canonical spelling: 36 letters, digits and dashes.
-/
def CanonicalUuid (uuidString : String → Option String) : Prop :=
  ∀ s t, uuidString s = some t → t.length = 36 ∧ ∀ c ∈ t.toList, c.isAlphanum = true ∨ c = '-'

/-- **A valid id is short and plain**: at most four characters of prefix and 36 more. -/
theorem of_valid (huuid : CanonicalUuid uuidString) (h : valid uuidString userId) :
    userId.length ≤ prefixLength + 36 ∧ ∀ c ∈ userId.toList, IdChar c := by
  -- it is enough to look at the prefix and at the rest
  have hparts : ∀ pre t : String, pre.length = prefixLength → (∀ c ∈ pre.toList, IdChar c) →
      t.length ≤ 36 → (∀ c ∈ t.toList, IdChar c) →
      (pre ++ t).length ≤ prefixLength + 36 ∧ ∀ c ∈ (pre ++ t).toList, IdChar c := by
    intro pre t hlen hpre ht hchars
    refine ⟨?_, fun c hc ↦ ?_⟩
    · rw [String.length_append, hlen]
      exact Nat.add_le_add_left ht _
    · rw [String.toList_append] at hc
      exact (mem_append.1 hc).elim (hpre c) (hchars c)
  rcases cases_of_valid h with ⟨a, ha⟩ | ⟨u, rfl, hu⟩
  · obtain ⟨pre, hpre, hfits, rfl⟩ := eq_append_of_parseActor ha
    refine hparts _ _ ?_ ?_ ((length_formatInt_le hfits).trans (by decide)) fun c hc ↦ ?_
    · rcases hpre with rfl | rfl <;> rfl
    · rcases hpre with rfl | rfl <;> exact idChar_of_all (by decide)
    · rcases mem_formatInt hc with hdigit | rfl
      · exact .inl (by simp [Char.isAlphanum, hdigit])
      · exact .inr (.inl rfl)
  · obtain ⟨hlen, hchars⟩ := huuid _ _ hu
    exact hparts prefixNative u rfl (idChar_of_all (by decide)) hlen.le
      fun c hc ↦ (hchars c hc).imp_right .inl

example : (parseActor "u___17").isSome ∧ (parseActor "u___017") = none := by decide +kernel

end Nexo.Identity
