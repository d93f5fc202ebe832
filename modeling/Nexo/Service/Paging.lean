import Nexo.Errcode
import Nexo.Lib.Base64
import Nexo.Lib.Strconv

/-!
# Paging through the conversations of a user

`service/conv`: `ListPage` and the cursor it hands out, the base64 text of
`<updated_at_ms>:<conversation_id>`. A cursor comes back from the client, so that the decoded bytes
need not be UTF-8; a conversation id in a cursor is therefore a byte string.

`ListPage` asks the store for one row more than it returns, to learn whether there is another page.
Go's `int` has 64 bits here, and `limit + 1` wraps around.
-/

namespace Nexo

open Errcode List

/-- The bytes of a string. -/
def utf8 (s : String) : List UInt8 := s.toByteArray.data.toList

/-- `store.ListCursor`: pages go down by `(updated_at, conversation_id)`. -/
structure ListCursor where
  updatedAt : Time
  conversationId : List UInt8
  deriving DecidableEq

/-- `store.FirstPage`: midnight of 1 January 9999 UTC. -/
def firstPage : ListCursor := { updatedAt := 253370764800000, conversationId := [] }

namespace Conv

/-! ### The cursor -/

/-- `conv.EncodeCursor` -/
def encodeCursor (c : ListCursor) : String :=
  Base64.rawUrl.encode (utf8 (Strconv.formatInt c.updatedAt) ++ utf8 ":" ++ c.conversationId)

/-- The byte of `":"`. -/
def colon : UInt8 := 58

/-- `strings.Cut(s, ":")`: what is before and after the first separator, if there is one. -/
def cut (s : List UInt8) : Option (List UInt8 × List UInt8) :=
  if colon ∈ s then some (s.takeWhile (· ≠ colon), (s.dropWhile (· ≠ colon)).tail) else none

/-- The characters `ParseInt` sees, one for each byte: those beyond ASCII are errors to it. -/
def chars (s : List UInt8) : String := .ofList (s.map fun b ↦ Char.ofNat b.toNat)

/-- `conv.DecodeCursor` -/
def decodeCursor (s : String) : Option ListCursor :=
  if s = "" then some firstPage
  else
    match Base64.rawUrl.decode s with
    | none => none
    | some raw =>
      match cut raw with
      | none => none
      | some (ms, id) =>
        if id = [] then none
        else
          match Strconv.parseInt (chars ms) with
          | none => none
          | some n => some { updatedAt := n, conversationId := id }

/-! ### One page -/

/-- `conv.Lister`: the rows of an owner below a cursor, so many at most. -/
abbrev Lister := String → ListCursor → Int → Except StoreErr (List UserConversationRow)

/-- The value a signed 64-bit word holds after an operation. -/
def int64 (n : Int) : Int := (n + 2 ^ 63) % 2 ^ 64 - 2 ^ 63

/-- The number of rows on a full page. -/
def pageSize (limit pageMax : Int) : Int :=
  if limit ≤ 0 ∨ limit > max pageMax 1 then max pageMax 1 else limit

theorem one_le_pageSize (limit pageMax : Int) : 1 ≤ pageSize limit pageMax := by
  unfold pageSize
  split <;> omega

/-- The key of a row, as a cursor. -/
def rowCursor (r : UserConversationRow) : ListCursor where
  updatedAt := r.updatedAt
  conversationId := utf8 r.conversationId

/-- A page with something beyond it has a last row. -/
theorem take_ne_nil {rows : List UserConversationRow} {limit pageMax : Int}
    (h : ¬ (rows.length : Int) ≤ pageSize limit pageMax) :
    rows.take (pageSize limit pageMax).toNat ≠ [] := by
  have hone := one_le_pageSize limit pageMax
  rw [← length_pos_iff, length_take]
  omega

/-- `conv.ListPage`: the rows, the next cursor and whether there is more. -/
def listPage (st : Lister) (userId cursor : String) (limit pageMax : Int) :
    Except Err (List UserConversationRow × String × Bool) :=
  match decodeCursor cursor with
  | none => .error (errInvalidParam.withMessage "bad cursor")
  | some cur =>
    match st userId cur (int64 (pageSize limit pageMax + 1)) with
    | .error err => .error (errStoreFailed.wrap (.store err))
    | .ok rows =>
      if h : (rows.length : Int) ≤ pageSize limit pageMax then .ok (rows, "", false)
      else
        let last := (rows.take (pageSize limit pageMax).toNat).getLast (take_ne_nil h)
        .ok (rows.take (pageSize limit pageMax).toNat, encodeCursor (rowCursor last), true)

/-! ### Bytes -/

theorem utf8_injective : Function.Injective utf8 := fun _ _ h ↦
  String.toByteArray_inj.1 (ByteArray.ext (Array.toList_inj.1 h))

theorem utf8_ofList (cs : List Char) :
    utf8 (String.ofList cs) = cs.flatMap String.utf8EncodeChar := by
  rw [utf8, String.toByteArray_ofList]
  simp [utf8Encode]

theorem utf8_eq_nil {s : String} : utf8 s = [] ↔ s = "" :=
  ⟨fun h ↦ utf8_injective (h.trans rfl), fun h ↦ h ▸ rfl⟩

/-- Text in ASCII has one byte for each character. -/
theorem utf8_ascii {s : String} (h : ∀ c ∈ s.toList, c.toNat ≤ 127) :
    utf8 s = s.toList.map fun c ↦ UInt8.ofNat c.toNat := by
  rw [← String.ofList_toList (s := s), utf8_ofList, String.toList_ofList, map_eq_flatMap]
  refine flatMap_congr fun c hc ↦ ?_
  exact if_pos (h c hc)

theorem chars_utf8 {s : String} (h : ∀ c ∈ s.toList, c.toNat ≤ 127) : chars (utf8 s) = s := by
  rw [chars, utf8_ascii h, map_map, map_congr_left (g := fun c ↦ c), map_id',
    String.ofList_toList]
  intro c hc
  have hlt : c.toNat < 256 := (h c hc).trans_lt (by decide)
  rw [Function.comp_apply, UInt8.toNat_ofNat_of_lt' hlt, Char.ofNat_toNat]

theorem colon_notMem_formatInt (n : Int) : colon ∉ utf8 (Strconv.formatInt n) := by
  rw [utf8_ascii fun c hc ↦ (Strconv.toNat_lt_of_mem_formatInt hc).le.trans (by decide), mem_map]
  rintro ⟨c, hc, heq⟩
  have hlt := Strconv.toNat_lt_of_mem_formatInt hc
  have hval := congrArg UInt8.toNat heq
  rw [UInt8.toNat_ofNat_of_lt' (hlt.trans (by decide))] at hval
  exact hlt.ne hval

/-! ### Round trip -/

theorem cut_append {s t : List UInt8} (h : colon ∉ s) : cut (s ++ utf8 ":" ++ t) = some (s, t) := by
  have hs : ∀ b ∈ s, (b ≠ colon : Bool) = true := fun b hb ↦
    decide_eq_true fun (heq : b = colon) ↦ h (heq ▸ hb)
  have hsep : utf8 ":" ++ t = colon :: t := rfl
  rw [cut, append_assoc, hsep, if_pos (by simp), takeWhile_append_of_pos hs,
    dropWhile_append_of_pos hs]
  simp

/-- **A cursor is read back**, when its time fits the text and its id is not empty. -/
theorem decodeCursor_encodeCursor {c : ListCursor} (hfits : Strconv.Fits c.updatedAt)
    (hid : c.conversationId ≠ []) : decodeCursor (encodeCursor c) = some c := by
  have hne : encodeCursor c ≠ "" := Base64.rawUrl.encode_ne_empty (by simp [hid])
  have hascii : ∀ d ∈ (Strconv.formatInt c.updatedAt).toList, d.toNat ≤ 127 := fun d hd ↦
    (Strconv.toNat_lt_of_mem_formatInt hd).le.trans (by decide)
  rw [decodeCursor, if_neg hne, encodeCursor, Base64.rawUrl.decode_encode]
  simp only [cut_append (colon_notMem_formatInt _), if_neg hid, chars_utf8 hascii,
    Strconv.parseInt_formatInt hfits]

end Conv

end Nexo
