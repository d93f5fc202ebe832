import Nexo.Ids

/-!
# The grammar of ids

Over all byte strings, what `ParseActor` accepts is what `UserId` prints for a positive 64-bit
number and a known role (`parseActor_eq_ok_iff`), because a number is read back from its spelling
and any other spelling of it is refused. What `Valid` accepts is that, or the native prefix and a
canonical UUID (`valid_iff`). Such ids are short ASCII strings without the separator of conversation
ids.

Conversation ids are keys of unordered pairs, on the server over bytes and in the web client over
UTF-16 units. On ASCII text the units are the bytes, and both sides make the same key.
-/

namespace Nexo

open Bytes Utf List Strconv

/-! ### ASCII text -/

theorem ascii_eq_utf8 {s : String} (h : ∀ c ∈ s.toList, c.toNat ≤ 127) : ascii s = utf8 s :=
  (Conv.utf8_ascii h).symm

theorem utf8_eq_flatMap (s : String) : utf8 s = s.toList.flatMap String.utf8EncodeChar := by
  rw [← Conv.utf8_ofList, String.ofList_toList]

theorem utf8_append (s t : String) : utf8 (s ++ t) = utf8 s ++ utf8 t := by
  rw [utf8_eq_flatMap, utf8_eq_flatMap, utf8_eq_flatMap, String.toList_append, flatMap_append]

/-- Bytes that are ASCII are the bytes of a text. -/
theorem utf8_chars {bs : Bytes} (h : ∀ b ∈ bs, b.toNat < 128) : utf8 (Conv.chars bs) = bs := by
  rw [Conv.chars, Conv.utf8_ofList, flatMap_map]
  refine (flatMap_congr fun b hb ↦ ?_).trans (flatMap_singleton' bs)
  have hlt := h b hb
  have hval : (Char.ofNat b.toNat).toNat = b.toNat := by
    have hchar : b.toNat.isValidChar := .inl (hlt.trans (by decide))
    rw [Char.ofNat, dif_pos hchar]
    rfl
  rw [utf8EncodeChar_of_ascii (by omega), hval, UInt8.ofNat_toNat]

theorem utf16_of_utf8 {s : String} (h : ∀ b ∈ utf8 s, b.toNat < 128) :
    utf16 s = (utf8 s).map UInt8.toUInt16 := by
  rw [utf8_eq_flatMap] at h ⊢
  refine utf16_of_ascii fun c hc ↦ ?_
  by_contra hascii
  obtain ⟨b, bs, hb⟩ := exists_cons_of_ne_nil (String.utf8EncodeChar_ne_nil (c := c))
  have hmem : b ∈ String.utf8EncodeChar c := hb ▸ mem_cons_self
  have hlt := h b (mem_flatMap.2 ⟨c, hc, hmem⟩)
  have hle := le_of_mem_utf8EncodeChar (Nat.lt_of_not_le hascii) hmem
  omega

theorem ascii_of_formatInt {n : Int} {c : Char} (h : c ∈ (formatInt n).toList) :
    c.toNat ≤ 127 :=
  (toNat_lt_of_mem_formatInt h).le.trans (by decide)

theorem chars_ascii_formatInt (n : Int) :
    Conv.chars (ascii (formatInt n)) = formatInt n := by
  rw [ascii_eq_utf8 fun c ↦ ascii_of_formatInt, Conv.chars_utf8 fun c ↦ ascii_of_formatInt]

/-- The bytes of a decimal text. -/
theorem toNat_of_mem_ascii_formatInt {n : Int} {b : UInt8}
    (h : b ∈ ascii (formatInt n)) : b.toNat < 58 := by
  obtain ⟨c, hc, rfl⟩ := mem_map.1 h
  have hlt := toNat_lt_of_mem_formatInt hc
  exact (UInt8.toNat_ofNat_of_lt' (hlt.trans (by decide))).trans_lt hlt

theorem ascii_formatInt_ne_nil (n : Int) : ascii (formatInt n) ≠ [] := by
  obtain ⟨c, cs, hcs, -⟩ := exists_toDigits_eq_cons n.natAbs
  simp [ascii, formatInt, hcs]

/-- ASCII bytes without the separator. -/
def PlainBytes (bs : Bytes) : Prop := ∀ b ∈ bs, b.toNat < 128 ∧ b ≠ Conv.colon

theorem plainBytes_of_all {bs : Bytes} (h : (bs.all fun b ↦ b.toNat < 128 ∧ b ≠ Conv.colon) = true) :
    PlainBytes bs := by
  simpa [PlainBytes] using h

theorem PlainBytes.append {bs bs' : Bytes} (h : PlainBytes bs) (h' : PlainBytes bs') :
    PlainBytes (bs ++ bs') :=
  fun b hb ↦ (mem_append.1 hb).elim (h b) (h' b)

namespace Identity.Raw

variable {s u : Bytes} {a : Actor} {role : Role}

/-! ### Actors -/

/-- An actor of a known role with a positive 64-bit number. -/
structure Actor.Proper (a : Actor) : Prop where
  role : a.role = roleUser ∨ a.role = roleAgent
  pos : 0 < a.id
  le : a.id ≤ 2 ^ 63 - 1

/-- **Only the canonical spelling of a number is read.** -/
theorem parseDigits_eq_ok_iff {digits : Bytes} : parseDigits s role digits = .ok a ↔
    a.role = role ∧ 0 < a.id ∧ a.id ≤ 2 ^ 63 - 1 ∧ digits = ascii (formatInt a.id) := by
  constructor
  · intro h
    unfold parseDigits at h
    split at h
    · cases h
    next id hid =>
      split at h
      · cases h
      next hcanonical =>
        obtain ⟨hpos, hdigits⟩ := not_or.1 hcanonical
        cases h
        exact ⟨rfl, Int.not_le.1 hpos, Int.le_sub_one_of_lt (fits_of_parseInt hid).2,
          (not_not.1 hdigits).symm⟩
  · rintro ⟨rfl, hpos, hle, rfl⟩
    have hfits : Strconv.Fits a.id := ⟨by omega, by omega⟩
    rw [parseDigits, chars_ascii_formatInt, parseInt_formatInt hfits]
    exact if_neg (not_or.2 ⟨Int.not_le.2 hpos, not_not.2 rfl⟩)

/-- A prefix is cut off where it ends. -/
theorem take_drop_append {pre : Bytes} (hpre : pre.length = prefixLength) (rest : Bytes) :
    (pre ++ rest).take prefixLength = pre ∧ (pre ++ rest).drop prefixLength = rest :=
  ⟨take_left' hpre, drop_left' hpre⟩

theorem not_length_le {pre rest : Bytes} (hpre : pre.length = prefixLength) (hrest : rest ≠ []) :
    ¬ (pre ++ rest).length ≤ prefixLength := by
  have hpos := length_pos_iff.2 hrest
  rw [length_append]
  omega

/-- **`ParseActor` is the inverse of `UserId`.** -/
theorem parseActor_eq_ok_iff : parseActor s = .ok a ↔ a.Proper ∧ a.userId = .ok s := by
  constructor
  · intro h
    unfold parseActor at h
    split at h
    · cases h
    split at h
    next huser =>
      obtain ⟨hrole, hpos, hle, hdigits⟩ := parseDigits_eq_ok_iff.1 h
      refine ⟨⟨.inl hrole, hpos, hle⟩, ?_⟩
      rw [Actor.userId, if_pos hrole, ← huser, ← hdigits, take_append_drop]
    next =>
      split at h
      next hagent =>
        obtain ⟨hrole, hpos, hle, hdigits⟩ := parseDigits_eq_ok_iff.1 h
        refine ⟨⟨.inr hrole, hpos, hle⟩, ?_⟩
        rw [Actor.userId, hrole, if_neg (by decide), if_pos rfl, ← hagent, ← hdigits,
          take_append_drop]
      next => cases h
  · rintro ⟨⟨hrole, hpos, hle⟩, hs⟩
    have hne := ascii_formatInt_ne_nil a.id
    rcases hrole with hrole | hrole
    · rw [Actor.userId, if_pos hrole] at hs
      cases hs
      have hlen : (ascii prefixUser).length = prefixLength := rfl
      obtain ⟨htake, hdrop⟩ := take_drop_append hlen (ascii (formatInt a.id))
      rw [parseActor, if_neg (not_length_le hlen hne), htake, hdrop, if_pos rfl]
      exact parseDigits_eq_ok_iff.2 ⟨hrole, hpos, hle, rfl⟩
    · rw [Actor.userId, hrole, if_neg (by decide), if_pos rfl] at hs
      cases hs
      have hlen : (ascii prefixAgent).length = prefixLength := rfl
      obtain ⟨htake, hdrop⟩ := take_drop_append hlen (ascii (formatInt a.id))
      rw [parseActor, if_neg (not_length_le hlen hne), htake, hdrop, if_neg (by decide), if_pos rfl]
      exact parseDigits_eq_ok_iff.2 ⟨hrole, hpos, hle, rfl⟩

/-- The text of a proper actor. -/
theorem Actor.Proper.userId_eq (h : a.Proper) : ∃ pre : String, (pre = prefixUser ∨ pre = prefixAgent) ∧
    a.userId = .ok (ascii pre ++ ascii (formatInt a.id)) := by
  rcases h.role with hrole | hrole
  · exact ⟨prefixUser, .inl rfl, if_pos hrole⟩
  · refine ⟨prefixAgent, .inr rfl, ?_⟩
    rw [Actor.userId, hrole, if_neg (by decide), if_pos rfl]

/-! ### UUIDs -/

/-- The groups of a UUID. -/
theorem IsUuid.eq_groups (h : IsUuid u) : ∃ g₁ g₂ g₃ g₄ g₅ : Bytes,
    u = g₁ ++ dash :: (g₂ ++ dash :: (g₃ ++ dash :: (g₄ ++ dash :: g₅))) ∧
    g₁.length = 8 ∧ g₂.length = 4 ∧ g₃.length = 4 ∧ g₄.length = 4 ∧ g₅.length = 12 ∧
    ∀ b, b ∈ g₁ ∨ b ∈ g₂ ∨ b ∈ g₃ ∨ b ∈ g₄ ∨ b ∈ g₅ → lowerHex b := by
  obtain ⟨hlengths, hhex⟩ := h
  obtain ⟨g₁, l₁, hl₀, h₁, hrest⟩ := map_eq_cons_iff.1 hlengths
  obtain ⟨g₂, l₂, rfl, h₂, hrest⟩ := map_eq_cons_iff.1 hrest
  obtain ⟨g₃, l₃, rfl, h₃, hrest⟩ := map_eq_cons_iff.1 hrest
  obtain ⟨g₄, l₄, rfl, h₄, hrest⟩ := map_eq_cons_iff.1 hrest
  obtain ⟨g₅, l₅, rfl, h₅, hrest⟩ := map_eq_cons_iff.1 hrest
  obtain rfl := map_eq_nil_iff.1 hrest
  refine ⟨g₁, g₂, g₃, g₄, g₅, ?_, h₁, h₂, h₃, h₄, h₅, fun b hb ↦ ?_⟩
  · have hjoin : [dash].intercalate (u.splitOn dash) = u := intercalate_splitOn dash
    rw [← hjoin, hl₀]
    simp [intercalate_cons_cons]
  · rw [hl₀] at hhex
    simp only [forall_mem_cons, all_eq_true] at hhex
    obtain ⟨hg₁, hg₂, hg₃, hg₄, hg₅, -⟩ := hhex
    rcases hb with hb | hb | hb | hb | hb
    exacts [hg₁ b hb, hg₂ b hb, hg₃ b hb, hg₄ b hb, hg₅ b hb]

/-- A UUID is 36 bytes long, each of them ASCII and none the separator. -/
theorem IsUuid.shape (h : IsUuid u) : u.length = 36 ∧ PlainBytes u := by
  obtain ⟨g₁, g₂, g₃, g₄, g₅, rfl, h₁, h₂, h₃, h₄, h₅, hhex⟩ := h.eq_groups
  constructor
  · simp only [length_append, length_cons, h₁, h₂, h₃, h₄, h₅]
  · have hdigit {b : UInt8} (hb : lowerHex b) : b.toNat < 128 ∧ b ≠ Conv.colon := by
      simp only [lowerHex, Bool.or_eq_true, Bool.and_eq_true, decide_eq_true_eq,
        UInt8.le_iff_toNat_le] at hb
      refine ⟨?_, fun heq ↦ ?_⟩
      · rcases hb with ⟨-, hle⟩ | ⟨-, hle⟩
        exacts [hle.trans_lt (by decide), hle.trans_lt (by decide)]
      · subst heq
        revert hb
        decide
    have hdash : dash.toNat < 128 ∧ dash ≠ Conv.colon := by decide
    intro b hb
    simp only [mem_append, mem_cons] at hb
    rcases hb with hb | rfl | hb | rfl | hb | rfl | hb | rfl | hb
    exacts [hdigit (hhex b (.inl hb)), hdash, hdigit (hhex b (.inr (.inl hb))), hdash,
      hdigit (hhex b (.inr (.inr (.inl hb)))), hdash, hdigit (hhex b (.inr (.inr (.inr (.inl hb))))),
      hdash, hdigit (hhex b (.inr (.inr (.inr (.inr hb)))))]

/-! ### Valid ids -/

variable {uuidString : Bytes → Option Bytes}

/-- The bytes of the text of an actor. -/
theorem Actor.Proper.shape (h : a.Proper) (hs : a.userId = .ok s) :
    s.length ≤ 24 ∧ PlainBytes s := by
  obtain ⟨pre, hpre, heq⟩ := h.userId_eq
  obtain rfl := Except.ok.inj (heq.symm.trans hs)
  have hstart : (ascii pre).length = 4 ∧ PlainBytes (ascii pre) := by
    rcases hpre with rfl | rfl
    exacts [⟨rfl, plainBytes_of_all (by decide)⟩, ⟨rfl, plainBytes_of_all (by decide)⟩]
  constructor
  · have hfits : Strconv.Fits a.id := ⟨by have := h.pos; omega, by have := h.le; omega⟩
    have hdigits := length_formatInt_le hfits
    rw [length_append, hstart.1, ascii, length_map, String.length_toList]
    omega
  · refine hstart.2.append fun b hb ↦ ?_
    have hlt := toNat_of_mem_ascii_formatInt hb
    refine ⟨hlt.trans (by decide), fun heq ↦ ?_⟩
    rw [heq] at hlt
    exact absurd hlt (by decide)

/-- `Valid`, by the kind of id. -/
theorem valid_iff : valid uuidString s = true ↔ (∃ a, parseActor s = .ok a) ∨
    ∃ u, s = nativeUserId u ∧ u ≠ [] ∧ Conv.colon ∉ u ∧ uuidString u = some u := by
  constructor
  · intro h
    unfold valid at h
    split at h
    · cases h
    next hshort =>
      obtain ⟨hlong, hcolon⟩ := not_or.1 hshort
      split at h
      · cases hparse : parseActor s with
        | error e => rw [hparse] at h; cases h
        | ok a => exact .inl ⟨a, rfl⟩
      · split at h
        next hnative =>
          have heq : s = nativeUserId (s.drop prefixLength) := by
            rw [nativeUserId, ← hnative, take_append_drop]
          refine .inr ⟨_, heq, ?_, fun hmem ↦ hcolon (mem_of_mem_drop hmem), of_decide_eq_true h⟩
          intro hnil
          exact hlong (drop_eq_nil_iff.1 hnil)
        next => cases h
  · rintro (⟨a, ha⟩ | ⟨u, rfl, hne, hcolon, huuid⟩)
    · obtain ⟨hproper, hid⟩ := parseActor_eq_ok_iff.1 ha
      have hcolon : Conv.colon ∉ s := fun hmem ↦ ((hproper.shape hid).2 _ hmem).2 rfl
      obtain ⟨pre, hpre, heq⟩ := hproper.userId_eq
      obtain rfl := Except.ok.inj (heq.symm.trans hid)
      have hlen : (ascii pre).length = prefixLength := by rcases hpre with rfl | rfl <;> rfl
      have htake : ascii pre = ascii prefixUser ∨ ascii pre = ascii prefixAgent :=
        hpre.imp (congrArg ascii) (congrArg ascii)
      rw [valid, if_neg (not_or.2 ⟨not_length_le hlen (ascii_formatInt_ne_nil _), hcolon⟩),
        (take_drop_append hlen _).1, if_pos htake, ha]
      rfl
    · have hlen : (ascii prefixNative).length = prefixLength := rfl
      have hmem : Conv.colon ∉ ascii prefixNative ++ u :=
        fun hmem ↦ (mem_append.1 hmem).elim (by decide) hcolon
      obtain ⟨htake, hdrop⟩ := take_drop_append hlen u
      rw [nativeUserId, valid, if_neg (not_or.2 ⟨not_length_le hlen hne, hmem⟩), htake, hdrop,
        if_neg (by decide), if_pos rfl]
      exact decide_eq_true huuid

/-- `Valid`, under what is assumed of `uuid`. -/
theorem UuidPackage.valid_iff (h : UuidPackage uuidString) : valid uuidString s = true ↔
    (∃ a : Actor, a.Proper ∧ a.userId = .ok s) ∨ ∃ u, IsUuid u ∧ s = nativeUserId u := by
  refine Raw.valid_iff.trans (or_congr (exists_congr fun a ↦ parseActor_eq_ok_iff) ?_)
  refine exists_congr fun u ↦ ⟨fun ⟨hs, _, _, huuid⟩ ↦ ⟨h.prints _ _ huuid, hs⟩, fun ⟨hu, hs⟩ ↦ ?_⟩
  obtain ⟨hlen, hbytes⟩ := hu.shape
  refine ⟨hs, fun hnil ↦ ?_, fun hmem ↦ (hbytes _ hmem).2 rfl, h.accepts u hu⟩
  rw [hnil] at hlen
  cases hlen

/-- **A valid id is a short ASCII string without the separator.** -/
theorem UuidPackage.shape (h : UuidPackage uuidString) (hs : valid uuidString s = true) :
    s.length ≤ 40 ∧ PlainBytes s := by
  rcases h.valid_iff.1 hs with ⟨a, hproper, hid⟩ | ⟨u, hu, rfl⟩
  · obtain ⟨hlen, hbytes⟩ := hproper.shape hid
    exact ⟨hlen.trans (by decide), hbytes⟩
  · obtain ⟨hlen, hbytes⟩ := hu.shape
    refine ⟨?_, PlainBytes.append (plainBytes_of_all (by decide)) hbytes⟩
    rw [nativeUserId, length_append, hlen]
    decide

end Identity.Raw

/-- **The grammar of ids is canonical.** `ParseActor` and `UserId` are inverse to each other between
the accepted strings and the proper actors; a valid id is the string of such an actor or of a native
account, and it is short, in ASCII and without the separator. -/
theorem Identity.Raw.id_grammar {uuidString : Bytes → Option Bytes} (huuid : UuidPackage uuidString) :
    (∀ s a, parseActor s = .ok a ↔ a.Proper ∧ a.userId = .ok s) ∧
    (∀ a : Actor, a.Proper → ∃ s, a.userId = .ok s ∧ parseActor s = .ok a) ∧
    (∀ s t a, parseActor s = .ok a → parseActor t = .ok a → s = t) ∧
    (∀ a b : Actor, a.Proper → b.Proper → a.userId = b.userId → a = b) ∧
    (∀ s, valid uuidString s = true ↔
      (∃ a : Actor, a.Proper ∧ a.userId = .ok s) ∨ ∃ u, IsUuid u ∧ s = nativeUserId u) ∧
    ∀ s, valid uuidString s = true →
      (∀ b ∈ s, b.toNat < 128) ∧ Conv.colon ∉ s ∧ s.length ≤ 40 := by
  have hprints (a : Actor) (ha : a.Proper) : ∃ s, a.userId = .ok s ∧ parseActor s = .ok a := by
    obtain ⟨pre, -, heq⟩ := ha.userId_eq
    exact ⟨_, heq, parseActor_eq_ok_iff.2 ⟨ha, heq⟩⟩
  refine ⟨fun s a ↦ parseActor_eq_ok_iff, hprints, fun s t a hs ht ↦ ?_, fun a b ha hb hab ↦ ?_,
    fun s ↦ huuid.valid_iff, fun s hs ↦ ?_⟩
  · exact Except.ok.inj ((parseActor_eq_ok_iff.1 hs).2.symm.trans (parseActor_eq_ok_iff.1 ht).2)
  · obtain ⟨s, has, hparse⟩ := hprints a ha
    have hparse' := parseActor_eq_ok_iff.2 ⟨hb, hab.symm.trans has⟩
    exact Except.ok.inj (hparse.symm.trans hparse')
  · obtain ⟨hlen, hbytes⟩ := huuid.shape hs
    exact ⟨fun b hb ↦ (hbytes b hb).1, fun hmem ↦ (hbytes _ hmem).2 rfl, hlen⟩

/-- A package `uuid` that parses canonical UUIDs only. -/
def Identity.Raw.strictUuid (s : Bytes) : Option Bytes := if IsUuid s then some s else none

theorem Identity.Raw.uuidPackage_strictUuid : UuidPackage strictUuid where
  accepts u hu := if_pos hu
  prints s u h := by
    unfold strictUuid at h
    split at h
    next hs => exact Option.some.inj h ▸ hs
    next => cases h

open Identity.Raw in
theorem Identity.Raw.id_grammar_demo : UuidPackage strictUuid ∧
    valid strictUuid (ascii "nx__0190a5d4-ac96-774b-bcce-b302099a8057") = true ∧
    (ascii "nx__0190a5d4-ac96-774b-bcce-b302099a8057").length ≤ 40 ∧
    (⟨17, roleAgent⟩ : Actor).Proper ∧ parseActor (ascii "ag__17") = .ok ⟨17, roleAgent⟩ ∧
    valid strictUuid (ascii "ag__17") = true ∧ valid strictUuid (ascii "ag__017") = false := by
  have hgrammar := id_grammar uuidPackage_strictUuid
  have hnative : valid strictUuid (ascii "nx__0190a5d4-ac96-774b-bcce-b302099a8057") = true := by
    decide +kernel
  have hproper : (⟨17, roleAgent⟩ : Actor).Proper := ⟨.inr rfl, by decide, by decide⟩
  have hid : (⟨17, roleAgent⟩ : Actor).userId = .ok (ascii "ag__17") := by decide +kernel
  exact ⟨uuidPackage_strictUuid, hnative, (hgrammar.2.2.2.2.2 _ hnative).2.2, hproper,
    (hgrammar.1 _ _).2 ⟨hproper, hid⟩, (hgrammar.2.2.2.2.1 _).2 (.inl ⟨_, hproper, hid⟩),
    by decide +kernel⟩

/-! ### Conversation ids -/

namespace Conv.Raw

open PairKey

theorem single_eq (a b : Bytes) : single a b = ascii "si_" ++ pair colon a b := by
  have hcolon : ascii ":" = [colon] := by decide
  unfold single pair
  by_cases h : b < a
  · simp only [if_pos h, hcolon, append_assoc, singleton_append]
  · simp only [if_neg h, hcolon, append_assoc, singleton_append]

/-- **A single chat has two parties**, which its id determines. -/
theorem single_eq_single_iff {a b c d : Bytes} (ha : colon ∉ a) (hb : colon ∉ b) :
    single a b = single c d ↔ ({a, b} : Set Bytes) = {c, d} := by
  rw [single_eq, single_eq, append_cancel_left_eq, pair_eq_pair_iff ha hb]

theorem single_ne_group (a b g : Bytes) : single a b ≠ group g := by
  intro h
  rw [single_eq, group] at h
  have hlen : (ascii "si_").length = (ascii "sg_").length := by decide
  exact absurd (append_inj_left h hlen) (by decide)

theorem group_injective : Function.Injective group := fun _ _ h ↦ append_cancel_left h

/-- The server's ids of texts are those of their bytes. -/
theorem single_utf8 (s t : String) : single (utf8 s) (utf8 t) = utf8 (Conv.single s t) := by
  have horder : utf8 t < utf8 s ↔ t < s := by
    rw [utf8_eq_flatMap, utf8_eq_flatMap, flatMap_utf8EncodeChar_lt_iff, String.lt_iff_toList_lt]
  have hstart : utf8 "si_" = ascii "si_" := by decide
  have hcolon : utf8 ":" = ascii ":" := by decide
  unfold single Conv.single
  by_cases h : t < s
  · simp only [if_pos h, if_pos (horder.2 h), utf8_append, hstart, hcolon]
  · simp only [if_neg h, if_neg (mt horder.1 h), utf8_append, hstart, hcolon]

end Conv.Raw

open PairKey in
theorem Web.directId_eq (a b : List UInt16) : Web.directId a b = utf16 "si_" ++ pair 58 a b := by
  have hsort : [a, b].insertionSort (fun x y ↦ ¬ y < x) = if ¬ b < a then [a, b] else [b, a] := rfl
  have hjoin (x y : List UInt16) : (utf16 ":").intercalate [x, y] = x ++ 58 :: y := by
    have hsep : utf16 ":" = [58] := by decide
    rw [hsep, intercalate_cons_cons, intercalate_singleton, append_assoc,
      singleton_append]
  rw [Web.directId, hsort, pair]
  by_cases h : b < a
  · rw [if_neg (not_not.2 h), if_pos h, hjoin]
  · rw [if_pos h, if_neg h, hjoin]

/-- **Both sides make the same key of ASCII ids**, each in its own encoding. -/
theorem Web.directId_map (a b : Bytes) : Web.directId (a.map UInt8.toUInt16) (b.map UInt8.toUInt16) =
    (Conv.Raw.single a b).map UInt8.toUInt16 := by
  have hlt (x y : UInt8) : x.toUInt16 < y.toUInt16 ↔ x < y := by
    rw [UInt16.lt_iff_toNat_lt, UInt8.toNat_toUInt16, UInt8.toNat_toUInt16, UInt8.lt_iff_toNat_lt]
  have hinj : Function.Injective UInt8.toUInt16 := fun x y h ↦ by
    rw [← UInt8.toNat_inj, ← UInt8.toNat_toUInt16, h, UInt8.toNat_toUInt16]
  rw [Web.directId_eq, Conv.Raw.single_eq, map_append, PairKey.map_pair hlt hinj]
  rfl

/-- **Conversation ids identify conversations**, and the web client's are the server's. -/
theorem Conv.Raw.conversation_ids {uuidString : Bytes → Option Bytes}
    (huuid : Identity.Raw.UuidPackage uuidString) :
    (∀ a b c d, colon ∉ a → colon ∉ b → colon ∉ c → colon ∉ d →
      (single a b = single c d ↔ ({a, b} : Set Bytes) = {c, d})) ∧
    (∀ a b g, single a b ≠ group g) ∧
    Function.Injective group ∧
    ∀ a b, Identity.Raw.valid uuidString a = true → Identity.Raw.valid uuidString b = true →
      ∃ s t u : String, utf8 s = a ∧ utf8 t = b ∧ utf8 u = single a b ∧
        utf16 u = Web.directId (utf16 s) (utf16 t) := by
  refine ⟨fun a b c d ha hb _ _ ↦ single_eq_single_iff ha hb, single_ne_group, group_injective,
    fun a b ha hb ↦ ?_⟩
  have hplain {x : Bytes} (hx : Identity.Raw.valid uuidString x = true) : ∀ y ∈ x, y.toNat < 128 :=
    fun y hy ↦ ((huuid.shape hx).2 y hy).1
  have hsingle : ∀ y ∈ single a b, y.toNat < 128 := by
    have hstart : PlainBytes (ascii "si_") := plainBytes_of_all (by decide)
    intro y hy
    rw [single_eq, List.mem_append, PairKey.mem_pair] at hy
    rcases hy with hy | rfl | hy | hy
    exacts [(hstart y hy).1, by decide, hplain ha y hy, hplain hb y hy]
  have hs := utf8_chars (hplain ha)
  have ht := utf8_chars (hplain hb)
  have hu : utf8 (Conv.single (chars a) (chars b)) = single a b := by rw [← single_utf8, hs, ht]
  refine ⟨chars a, chars b, Conv.single (chars a) (chars b), hs, ht, hu, ?_⟩
  rw [utf16_of_utf8 (hu.symm ▸ hsingle), utf16_of_utf8 (hs.symm ▸ hplain ha),
    utf16_of_utf8 (ht.symm ▸ hplain hb), hu, hs, ht, Web.directId_map]

open Identity.Raw in
theorem Conv.Raw.conversation_ids_demo : UuidPackage strictUuid ∧
    valid strictUuid (ascii "u___2") = true ∧ valid strictUuid (ascii "ag__10") = true ∧
    (∃ s t u : String, utf8 s = ascii "u___2" ∧ utf8 t = ascii "ag__10" ∧
      utf8 u = single (ascii "u___2") (ascii "ag__10") ∧ utf16 u = Web.directId (utf16 s) (utf16 t)) ∧
    single (ascii "u___2") (ascii "ag__10") = ascii "si_ag__10:u___2" ∧
    single (ascii "u___2") (ascii "ag__10") = single (ascii "ag__10") (ascii "u___2") := by
  have hids := conversation_ids uuidPackage_strictUuid
  have hvalid : valid strictUuid (ascii "u___2") = true ∧ valid strictUuid (ascii "ag__10") = true := by
    decide +kernel
  have hcolon : colon ∉ ascii "u___2" ∧ colon ∉ ascii "ag__10" := by decide +kernel
  exact ⟨uuidPackage_strictUuid, hvalid.1, hvalid.2, hids.2.2.2 _ _ hvalid.1 hvalid.2,
    by decide +kernel, (hids.1 _ _ _ _ hcolon.1 hcolon.2 hcolon.2 hcolon.1).2 (Set.pair_comm _ _)⟩

end Nexo
