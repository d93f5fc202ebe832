import Nexo.Lib.Bytes
import Mathlib.Data.List.TakeWhile

/-!
# Parsing URLs and writing request targets

The part of Go's `net/url` that lies between the text of a URL and the target of the request line:
`Parse`, `EscapedPath` and `RequestURI`. What is decided about an authority and a fragment is left
open, as the parameters `authority` (the host, if the authority is accepted) and `fragmentOk`.

Both the target and whoever reads it agree on what the path is because an escaped path has no
question mark (`cut_requestURI`); and a URL that has a slash before any question mark or hash, and a
host, has a path (`path_ne_nil`).
-/

namespace Url

open Bytes List Option

abbrev slash : UInt8 := 0x2f
abbrev question : UInt8 := 0x3f
abbrev hash : UInt8 := 0x23
abbrev colon : UInt8 := 0x3a
abbrev percent : UInt8 := 0x25
abbrev star : UInt8 := 0x2a

/-- `net/url.URL`, without the user, the fragment and `OmitHost`. -/
structure URL where
  scheme : Bytes := []
  opaquePart : Bytes := []
  host : Bytes := []
  path : Bytes := []
  rawPath : Bytes := []
  forceQuery : Bool := false
  rawQuery : Bytes := []
  deriving DecidableEq

/-! ### Escaping -/

def isLetter (c : UInt8) : Bool := (0x61 ≤ c && c ≤ 0x7a) || (0x41 ≤ c && c ≤ 0x5a)

def isDigit (c : UInt8) : Bool := 0x30 ≤ c && c ≤ 0x39

/-- What is escaped: a path, or a key or value of a query. -/
inductive Mode where
  | path
  | queryComponent
  deriving DecidableEq

/-- `shouldEscape` -/
def shouldEscape (mode : Mode) (c : UInt8) : Bool :=
  if isLetter c || isDigit c then false
  else if c ∈ ascii "-_.~" then false
  else if c ∈ ascii "$&+,/:;=?@" then
    match mode with
    | .path => c = question
    | .queryComponent => true
  else true

/-- A digit, below 16, in upper case. -/
def upperHex (n : UInt8) : UInt8 := if n < 10 then 0x30 + n else 0x37 + n

/-- `escape` -/
def escape (mode : Mode) (s : Bytes) : Bytes :=
  s.flatMap fun c ↦
    if shouldEscape mode c then
      if c = 0x20 ∧ mode = .queryComponent then ascii "+"
      else [percent, upperHex (c / 16), upperHex (c % 16)]
    else [c]

/-- The value of a hexadecimal digit. -/
def unhex (c : UInt8) : Option UInt8 :=
  if isDigit c then some (c - 0x30)
  else if 0x61 ≤ c && c ≤ 0x66 then some (c - 0x57)
  else if 0x41 ≤ c && c ≤ 0x46 then some (c - 0x37)
  else none

/-- `unescape`, of a path. -/
def unescape : Bytes → Option Bytes
  | [] => some []
  | c :: s =>
    if c = percent then
      match s with
      | hi :: lo :: s =>
        match unhex hi, unhex lo with
        | some hi, some lo => (unescape s).map ((hi * 16 + lo) :: ·)
        | _, _ => none
      | _ => none
    else (unescape s).map (c :: ·)

/-- `validEncoded`, of a path. -/
def validEncoded (s : Bytes) : Bool :=
  s.all fun c ↦ c ∈ ascii "!$&'()*+,;=:@[]%" || !shouldEscape .path c

/-- `EscapedPath` -/
def URL.escapedPath (u : URL) : Bytes :=
  if u.rawPath ≠ [] ∧ validEncoded u.rawPath ∧ unescape u.rawPath = some u.path then u.rawPath
  else if u.path = [star] then [star]
  else escape .path u.path

/-- `RequestURI` -/
def URL.requestURI (u : URL) : Bytes :=
  let result :=
    if u.opaquePart = [] then
      if u.escapedPath = [] then [slash] else u.escapedPath
    else if [slash, slash] <+: u.opaquePart then u.scheme ++ colon :: u.opaquePart
    else u.opaquePart
  if u.forceQuery ∨ u.rawQuery ≠ [] then result ++ question :: u.rawQuery else result

/-! ### Parsing -/

/-- The loop of `getScheme`: `before` is what was passed, in reverse. `none` is an error. -/
def getSchemeFrom (before : Bytes) (rawURL : Bytes) : Bytes → Option (Bytes × Bytes)
  | [] => some ([], rawURL)
  | c :: s =>
    if isLetter c then getSchemeFrom (c :: before) rawURL s
    else if isDigit c || c ∈ ascii "+-." then
      if before = [] then some ([], rawURL) else getSchemeFrom (c :: before) rawURL s
    else if c = colon then
      if before = [] then none else some (before.reverse, s)
    else some ([], rawURL)

/-- `getScheme` -/
def getScheme (rawURL : Bytes) : Option (Bytes × Bytes) := getSchemeFrom [] rawURL rawURL

/-- `strings.ToLower`, of a scheme. -/
def toLower (s : Bytes) : Bytes := s.map fun c ↦ if 0x41 ≤ c && c ≤ 0x5a then c + 0x20 else c

/-- `stringContainsCTLByte` -/
def containsCTLByte (s : Bytes) : Bool := s.any fun c ↦ c < 0x20 || c = 0x7f

/-- `setPath` -/
def URL.setPath (u : URL) (p : Bytes) : Option URL :=
  (unescape p).map fun path ↦
    { u with path, rawPath := if p = escape .path path then [] else p }

/-- The query is split off: the rest, `RawQuery` and `ForceQuery`. -/
def splitQuery (rest : Bytes) : Bytes × Bytes × Bool :=
  if rest.getLast? = some question ∧ rest.count question = 1 then (rest.dropLast, [], true)
  else ((cut question rest).1, (cut question rest).2, false)

variable (authority : Bytes → Option Bytes) (fragmentOk : Bytes → Bool) {u : URL}

/-- The part of `parse` that follows the scheme and the query. -/
def parseRest (u : URL) (rest : Bytes) : Option URL :=
  if [slash] <+: rest ∨ u.scheme = [] then
    if ¬ [slash] <+: rest ∧ colon ∈ (cut slash rest).1 then none
    else if (u.scheme ≠ [] ∨ ¬ [slash, slash, slash] <+: rest) ∧ [slash, slash] <+: rest then
      let after := rest.drop 2
      (authority (after.takeWhile (· ≠ slash))).bind fun host ↦
        { u with host }.setPath (after.dropWhile (· ≠ slash))
    else u.setPath rest
  else some { u with opaquePart := rest }

/-- `parse`, not via a request. -/
def parse (rawURL : Bytes) : Option URL :=
  if containsCTLByte rawURL then none
  else if rawURL = [star] then some { path := [star] }
  else
    (getScheme rawURL).bind fun (scheme, rest) ↦
      parseRest authority
        { scheme := toLower scheme, rawQuery := (splitQuery rest).2.1, forceQuery := (splitQuery rest).2.2 }
        (splitQuery rest).1

/-- `Parse` -/
def Parse (rawURL : Bytes) : Option URL :=
  (parse authority (cut hash rawURL).1).bind fun url ↦
    if (cut hash rawURL).2 = [] ∨ fragmentOk (cut hash rawURL).2 then some url else none

/-! ### The target of a URL -/

theorem upperHex_ne_question (c : UInt8) :
    upperHex (c / 16) ≠ question ∧ upperHex (c % 16) ≠ question := by
  revert c
  exact forall_byte (by decide +kernel)

theorem question_notMem_escape (s : Bytes) : question ∉ escape .path s := by
  intro h
  obtain ⟨c, -, hc⟩ := mem_flatMap.1 h
  obtain ⟨hhi, hlo⟩ := upperHex_ne_question c
  split_ifs at hc with hescape hspace
  · cases hspace.2
  · simp only [mem_cons, not_mem_nil, or_false] at hc
    rcases hc with hc | hc | hc
    · exact absurd hc (by decide)
    · exact hhi hc.symm
    · exact hlo hc.symm
  · rw [← mem_singleton.1 hc] at hescape
    exact hescape (by decide)

/-- **An escaped path has no question mark.** -/
theorem question_notMem_escapedPath (u : URL) : question ∉ u.escapedPath := by
  rw [URL.escapedPath]
  split_ifs with hraw hstar
  · intro h
    have hvalid := all_eq_true.1 hraw.2.1 question h
    exact absurd hvalid (by decide)
  · decide
  · exact question_notMem_escape u.path

theorem escapedPath_ne_nil (h : u.path ≠ []) : u.escapedPath ≠ [] := by
  rw [URL.escapedPath]
  split_ifs with hraw hstar
  · exact hraw.1
  · exact cons_ne_nil _ _
  · obtain ⟨c, s, hs⟩ := exists_cons_of_ne_nil h
    rw [hs, escape, flatMap_cons]
    split_ifs <;> exact cons_ne_nil _ _

/-- **A reader that cuts the target at its first question mark finds the escaped path and the
query.** -/
theorem cut_requestURI (hopaquePart : u.opaquePart = []) (hpath : u.path ≠ []) :
    cut question u.requestURI = (u.escapedPath, u.rawQuery) := by
  have hno := question_notMem_escapedPath u
  simp only [URL.requestURI, if_pos hopaquePart, if_neg (escapedPath_ne_nil hpath)]
  split_ifs with hquery
  · exact cut_append_sep hno u.rawQuery
  · rw [cut_of_notMem hno, not_not.1 (not_or.1 hquery).2]

/-! ### The path of a URL -/

theorem unescape_ne_nil {s path : Bytes} (hs : s ≠ []) (h : unescape s = some path) : path ≠ [] := by
  obtain ⟨c, s, rfl⟩ := exists_cons_of_ne_nil hs
  rw [unescape.eq_def] at h
  simp only at h
  split_ifs at h with hc
  · split at h
    · split at h
      · obtain ⟨rest, -, rfl⟩ := map_eq_some_iff.1 h
        exact cons_ne_nil _ _
      · cases h
    · cases h
  · obtain ⟨rest, -, rfl⟩ := map_eq_some_iff.1 h
    exact cons_ne_nil _ _

/-- A scheme ends before the first slash. -/
theorem getSchemeFrom_rest {before rawURL b' z scheme rest : Bytes}
    (h : getSchemeFrom before rawURL (b' ++ slash :: z) = some (scheme, rest)) :
    rest = rawURL ∨ ∃ b'', b'' <:+ b' ∧ rest = b'' ++ slash :: z := by
  induction b' generalizing before with
  | nil =>
    rw [nil_append, getSchemeFrom, if_neg (by decide), if_neg (by decide), if_neg (by decide)] at h
    exact .inl (Prod.mk.inj (some.inj h)).2.symm
  | cons c b' ih =>
    have hlater {before' : Bytes}
        (h : getSchemeFrom before' rawURL (b' ++ slash :: z) = some (scheme, rest)) :
        rest = rawURL ∨ ∃ b'', b'' <:+ c :: b' ∧ rest = b'' ++ slash :: z :=
      (ih h).imp_right fun ⟨b'', hs, heq⟩ ↦ ⟨b'', hs.trans (suffix_cons c b'), heq⟩
    rw [cons_append, getSchemeFrom] at h
    split_ifs at h
    · exact hlater h
    · exact .inl (Prod.mk.inj (some.inj h)).2.symm
    · exact hlater h
    · exact .inr ⟨b', suffix_cons c b', (Prod.mk.inj (some.inj h)).2.symm⟩
    · exact .inl (Prod.mk.inj (some.inj h)).2.symm

/-- The query comes after the first slash, if no question mark comes before it. -/
theorem splitQuery_rest {b z : Bytes} (hb : question ∉ b) :
    ∃ z', (splitQuery (b ++ slash :: z)).1 = b ++ slash :: z' := by
  rw [splitQuery]
  split_ifs with hforce
  · refine ⟨z.dropLast, ?_⟩
    have hz : z ≠ [] := by
      rintro rfl
      have hlast := hforce.1
      rw [getLast?_append_cons] at hlast
      exact absurd hlast (by decide)
    rw [dropLast_append_cons, dropLast_cons_of_ne_nil hz]
  · exact ⟨(cut question z).1, by rw [cut_append hb, cut, if_neg (by decide)]⟩

variable {authority fragmentOk}

theorem setPath_spec {u' : URL} {p : Bytes} (h : u.setPath p = some u') :
    u'.host = u.host ∧ u'.opaquePart = u.opaquePart ∧ (p ≠ [] → u'.path ≠ []) := by
  obtain ⟨path, hpath, rfl⟩ := map_eq_some_iff.1 h
  exact ⟨rfl, rfl, fun hp ↦ unescape_ne_nil hp hpath⟩

/-- A host comes with an authority, and what follows its first slash is the path. -/
theorem parseRest_spec {u' : URL} {rest : Bytes} (hu : u.host = [] ∧ u.opaquePart = [])
    (hrest : [slash, slash] <+: rest → slash ∈ rest.drop 2)
    (h : parseRest authority u rest = some u') (hhost : u'.host ≠ []) :
    u'.opaquePart = [] ∧ u'.path ≠ [] := by
  rw [parseRest] at h
  split_ifs at h with hslash hcolon hauth
  · obtain ⟨host, -, hset⟩ := bind_eq_some_iff.1 h
    obtain ⟨-, hopaquePart, hpath⟩ := setPath_spec hset
    refine ⟨hopaquePart.trans hu.2, hpath fun hnil ↦ ?_⟩
    have hall := dropWhile_eq_nil_iff.1 hnil slash (hrest hauth.2)
    exact absurd hall (by decide)
  · obtain ⟨hsame, -, -⟩ := setPath_spec h
    exact absurd (hsame.trans hu.1) hhost
  · cases h
    exact absurd hu.1 hhost

/-- **A URL with two slashes before any question mark or hash, something between them, and a host
has a path**, and is not opaque. -/
theorem path_ne_nil {b w z : Bytes} (hb : question ∉ b ∧ hash ∉ b) (hw : question ∉ w ∧ hash ∉ w)
    (hhead : ∀ c, w.head? = some c → c ≠ slash) (hne : w ≠ [])
    (h : Parse authority fragmentOk (b ++ slash :: (w ++ slash :: z)) = some u)
    (hhost : u.host ≠ []) : u.opaquePart = [] ∧ u.path ≠ [] := by
  have hsplit (x y : Bytes) : x ++ slash :: (w ++ slash :: y) = (x ++ slash :: w) ++ slash :: y := by
    rw [append_assoc, cons_append]
  have hhash : hash ∉ b ++ slash :: w := by
    simp only [mem_append, mem_cons, not_or]
    exact ⟨hb.2, by decide, hw.2⟩
  obtain ⟨url, hparse, hfragment⟩ := bind_eq_some_iff.1 h
  obtain rfl : url = u := by
    split_ifs at hfragment
    exact some.inj hfragment
  -- what is left of the text without its fragment
  have hcut : (cut hash (b ++ slash :: (w ++ slash :: z))).1 =
      b ++ slash :: (w ++ slash :: (cut hash z).1) := by
    rw [hsplit, cut_append hhash, cut, if_neg (by decide), hsplit]
  rw [hcut, parse] at hparse
  split_ifs at hparse with hctl hstar
  · cases hparse
    exact absurd rfl hhost
  obtain ⟨⟨scheme, rest⟩, hscheme, hparse⟩ := bind_eq_some_iff.1 hparse
  obtain ⟨b', hsuffix, rfl⟩ : ∃ b', b' <:+ b ∧
      rest = b' ++ slash :: (w ++ slash :: (cut hash z).1) := by
    rcases getSchemeFrom_rest hscheme with heq | h
    · exact ⟨b, suffix_refl b, heq⟩
    · exact h
  have hquestion : question ∉ b' ++ slash :: w := by
    simp only [mem_append, mem_cons, not_or]
    exact ⟨fun hmem ↦ hb.1 (hsuffix.subset hmem), by decide, hw.1⟩
  obtain ⟨z', hz'⟩ := splitQuery_rest (z := (cut hash z).1) hquestion
  rw [← hsplit, ← hsplit] at hz'
  simp only [hz'] at hparse
  refine parseRest_spec ⟨rfl, rfl⟩ (fun hauth ↦ ?_) hparse hhost
  -- an authority that took all slashes would start with the second of two adjacent ones
  rcases b' with - | ⟨a, - | ⟨a', b'⟩⟩
  · obtain ⟨c, w', rfl⟩ := exists_cons_of_ne_nil hne
    obtain ⟨t, ht⟩ := hauth
    have hc : c = slash := by
      simp only [cons_append, nil_append, cons.injEq] at ht
      exact ht.2.1.symm
    exact absurd hc (hhead c rfl)
  · simp
  · simp

end Url
