import Nexo.Sdk.Client

/-!
# What a signature covers

The lines of a signature string are kept apart by newlines, which no line has. The client signs the
escaped path and the raw query of its URL; the server cuts the request target at its first question
mark. Both are the same because an escaped path has none, and because the route prefix puts a path
into every URL with a host (`Url.path_ne_nil`).
-/

namespace Nexo

open Bytes Url Auth Sdk List

/-- The texts of a request line and of headers. -/
def Auth.InternalRequest.texts (r : InternalRequest) : List Bytes :=
  [r.service, r.timestamp, r.nonce, r.method, r.rawPath, r.rawQuery, r.userId, r.platformId]

/-- What the signature string is a function of. -/
def Auth.InternalRequest.bound (cr : Crypto) (r : InternalRequest) : List Bytes × Bytes :=
  (r.texts, cr.sha256 r.body)

theorem payload_injective {cr : Crypto} {r r' : InternalRequest} (hr : ∀ x ∈ r.texts, newline ∉ x)
    (hr' : ∀ x ∈ r'.texts, newline ∉ x) (h : r.payload cr = r'.payload cr) :
    r.bound cr = r'.bound cr := by
  have hlines (r : InternalRequest) : r.lines cr = r.texts ++ [hex (cr.sha256 r.body)] := rfl
  have hnewline {r : InternalRequest} (hr : ∀ x ∈ r.texts, newline ∉ x) :
      ∀ x ∈ r.lines cr, newline ∉ x := by
    intro x hx
    rw [hlines, mem_append, mem_singleton] at hx
    rcases hx with hx | rfl
    · exact hr x hx
    · exact fun hmem ↦ absurd (le_of_mem_hex hmem) (by decide)
  have heq : r.lines cr = r'.lines cr := join_injective (cons_ne_nil _ _)
    (cons_ne_nil _ _) (hnewline hr) (hnewline hr') h
  rw [hlines, hlines] at heq
  obtain ⟨htexts, hsum⟩ := append_inj' heq rfl
  exact Prod.ext htexts (hex_injective (cons.inj hsum).1)

/-- The slash, the middle and the second slash of the route prefix. -/
theorem apiPrefix_eq : apiPrefix = slash :: (ascii "api" ++ slash :: ascii "v1") := by decide

theorem notMem_trim {b : Bytes} {c : UInt8} (h : c ∉ b) (p : UInt8 → Bool) :
    c ∉ (b.reverse.dropWhile p).reverse := by
  intro hmem
  have hsub := (dropWhile_suffix p).subset (mem_reverse.1 hmem)
  exact h (mem_reverse.1 hsub)

/-- What `do` sends. -/
theorem doInternal_eq_some {cr : Crypto} {authority : Bytes → Option Bytes} {fragmentOk : Bytes → Bool}
    {c : Client} {call : Sdk.Call} {now : Int} {random signed : Bytes} {received : Received}
    (h : c.doInternal cr authority fragmentOk call now random = some (signed, received)) :
    ∃ auth url, c.internal = some auth ∧ Parse authority fragmentOk (c.fullUrl call) = some url ∧
      url.host ≠ [] ∧
      signed = c.signString cr auth call url (ascii (Strconv.formatInt now)) (hex random) ∧
      received = { method := call.method, requestURI := url.requestURI,
                   header := c.headers cr auth call url (ascii (Strconv.formatInt now)) (hex random),
                   body := call.body.getD [] } := by
  obtain ⟨auth, hauth, h⟩ := Option.bind_eq_some_iff.1 h
  obtain ⟨url, hparse, h⟩ := Option.bind_eq_some_iff.1 h
  simp only [Option.ite_none_left_eq_some, Option.some.injEq, Prod.mk.injEq] at h
  exact ⟨auth, url, hauth, hparse, h.1, h.2.1.symm, h.2.2.symm⟩

/-- **The client signs what the server verifies.** -/
theorem signString_eq_payload {cr : Crypto} {authority : Bytes → Option Bytes}
    {fragmentOk : Bytes → Bool} {baseUrl : Bytes} (hbase : question ∉ baseUrl ∧ hash ∉ baseUrl)
    {platformId : Int} {internal : Option Sdk.InternalAuth} {call : Sdk.Call} {now : Int}
    {random signed : Bytes} {received : Received}
    (h : (Client.new baseUrl platformId internal).doInternal cr authority fragmentOk call now random =
      some (signed, received)) : signed = (request received).payload cr := by
  obtain ⟨auth, url, -, hparse, hhost, rfl, rfl⟩ := doInternal_eq_some h
  obtain ⟨z, hz⟩ : ∃ z, (Client.new baseUrl platformId internal).fullUrl call =
      (Client.new baseUrl platformId internal).baseUrl ++
        slash :: (ascii "api" ++ slash :: z) := by
    refine ⟨ascii "v1" ++ (call.path ++
      if encode call.query ≠ [] then question :: encode call.query else []), ?_⟩
    rw [Client.fullUrl, apiPrefix_eq]
    simp only [append_assoc, cons_append]
  rw [hz] at hparse
  obtain ⟨hopaquePart, hpath⟩ := path_ne_nil
    ⟨notMem_trim hbase.1 _, notMem_trim hbase.2 _⟩ (by decide +kernel) (by decide +kernel)
    (by decide +kernel) hparse hhost
  have hcut := cut_requestURI hopaquePart hpath
  simp only [InternalRequest.payload, InternalRequest.lines, request, Received.getHeader,
    Client.headers, Option.getD_some, show (0x3f : UInt8) = question from rfl, hcut]
  rfl

/-- **The signature binds the whole request.** Requests without newlines in their texts that share a
signature string agree on every text and on the hash of the body; and for every call that the client
sends, to any base URL without query or fragment, the string it signs is the one the server
rebuilds, with the signature of that string. -/
theorem signature_binds (cr : Crypto) :
    (∀ r r' : InternalRequest, (∀ x ∈ r.texts, newline ∉ x) → (∀ x ∈ r'.texts, newline ∉ x) →
      r.payload cr = r'.payload cr → r.bound cr = r'.bound cr) ∧
    ∀ (authority : Bytes → Option Bytes) (fragmentOk : Bytes → Bool) (baseUrl : Bytes)
      (platformId : Int) (auth : Sdk.InternalAuth) (call : Sdk.Call) (now : Int)
      (random signed : Bytes) (received : Received),
      question ∉ baseUrl → hash ∉ baseUrl →
      (Client.new baseUrl platformId (some auth)).doInternal cr authority fragmentOk call now random =
        some (signed, received) →
      signed = (request received).payload cr ∧
        (request received).signature = sign cr auth.secret (request received) := by
  refine ⟨fun r r' hr hr' ↦ payload_injective hr hr', ?_⟩
  intro authority fragmentOk baseUrl platformId auth call now random signed received hq hh h
  have hsigned := signString_eq_payload ⟨hq, hh⟩ h
  refine ⟨hsigned, ?_⟩
  obtain ⟨auth', url, hauth, -, -, rfl, rfl⟩ := doInternal_eq_some h
  obtain rfl := Option.some.inj hauth
  rw [sign, ← hsigned]
  rfl

namespace SignatureDemo

/-- A host is what the authority says, and every fragment is accepted. -/
def plainCall : Option (Bytes × Received) :=
  (Client.new (ascii "https://h/im/") 5 (some ⟨ascii "svc", ascii "k"⟩)).doInternal
    ⟨fun b ↦ b, fun k p ↦ k ++ p⟩ some (fun _ ↦ true)
    { method := ascii "GET", path := ascii "/a b?c", query := [(ascii "q", [ascii "1"])],
      options := { userId := ascii "nx__a" } } 7 [0x0f]

end SignatureDemo

open SignatureDemo in
/-- A space in the path is escaped, and the query starts at the first question mark. -/
theorem signature_binds_demo : ∃ signed received, plainCall = some (signed, received) ∧
    (request received).rawPath = ascii "/im/api/v1/a%20b" ∧
    (request received).rawQuery = ascii "c?q=1" ∧
    signed = (request received).payload ⟨fun b ↦ b, fun k p ↦ k ++ p⟩ := by
  have hval : plainCall.map (fun x ↦ ((request x.2).rawPath, (request x.2).rawQuery)) =
      some (ascii "/im/api/v1/a%20b", ascii "c?q=1") := by decide +kernel
  obtain ⟨⟨signed, received⟩, hcall, hval⟩ := Option.map_eq_some_iff.1 hval
  obtain ⟨hpath, hquery⟩ := Prod.mk.inj hval
  refine ⟨signed, received, hcall, hpath, hquery, ?_⟩
  exact ((signature_binds ⟨fun b ↦ b, fun k p ↦ k ++ p⟩).2 some (fun _ ↦ true) (ascii "https://h/im/") 5
    ⟨ascii "svc", ascii "k"⟩ _ 7 [0x0f] signed received (by decide) (by decide) hcall).1

end Nexo
