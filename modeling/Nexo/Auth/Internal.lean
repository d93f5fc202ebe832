import Nexo.Lib.Bytes
import Nexo.Lib.Expiring
import Nexo.Lib.Strconv
import Mathlib.Algebra.Group.Basic

/-!
# Signed internal requests

`auth/internal.go` and the part of `api/middleware/internal.go` that rebuilds a request from what
was received. Strings are byte strings. The hash functions are parameters; instants and durations
are the elements of an ordered group in which a `second` is given, with exact arithmetic, and the
store of nonces is any driver of an expiring map, which may also fail.
-/

namespace Nexo.Auth

open Bytes Expiring

/-- `crypto/sha256` and `crypto/hmac` with it. -/
structure Crypto where
  sha256 : Bytes → Bytes
  hmac : Bytes → Bytes → Bytes

structure InternalRequest where
  service : Bytes
  timestamp : Bytes
  nonce : Bytes
  method : Bytes
  rawPath : Bytes
  rawQuery : Bytes
  userId : Bytes
  platformId : Bytes
  body : Bytes
  signature : Bytes
  deriving DecidableEq

abbrev newline : UInt8 := 0x0a

/-- The lines of the signature string. -/
def InternalRequest.lines (cr : Crypto) (r : InternalRequest) : List Bytes :=
  [r.service, r.timestamp, r.nonce, r.method, r.rawPath, r.rawQuery, r.userId, r.platformId,
    hex (cr.sha256 r.body)]

/-- `InternalRequest.payload` -/
def InternalRequest.payload (cr : Crypto) (r : InternalRequest) : Bytes := join newline (r.lines cr)

/-- `signPayload` -/
def signPayload (cr : Crypto) (secret payload : Bytes) : Bytes := hex (cr.hmac secret payload)

/-- `Sign` -/
def sign (cr : Crypto) (secret : Bytes) (r : InternalRequest) : Bytes :=
  signPayload cr secret (r.payload cr)

/-! ### Verification -/

/-- What `Verify` returns besides `nil`. -/
inductive InternalErr (T : Type) where
  /-- `ErrServiceNotAllowed` -/
  | serviceNotAllowed (service : Bytes)
  /-- `ErrClockSkew`: bad timestamp -/
  | badTimestamp
  /-- `ErrClockSkew`, with the difference -/
  | clockSkew (d : T)
  /-- `ErrBadSignature`: nonce too short -/
  | nonceTooShort
  /-- `ErrBadSignature` -/
  | badSignature
  /-- `ErrUnavailable`: nonce store -/
  | unavailable
  /-- `ErrNonceReplayed` -/
  | nonceReplayed
  deriving DecidableEq

def minNonceLen : ℕ := 16

/-- `cache.KeyPrefix` -/
def keyPrefix : Bytes := ascii "nexo:"

structure Internal (T : Type) where
  secrets : List Bytes
  services : List Bytes
  skew : T

/-- Whether a call of the store fails, before or after its effect. -/
inductive Fault where
  | none
  | before
  | after
  deriving DecidableEq

/-- `strconv.ParseInt(s, 10, 64)`, byte by byte. -/
def parseTimestamp (s : Bytes) : Option Int := Strconv.parseInt (String.ofList (s.map fun b ↦ .ofNat b.toNat))

def nonceKey (r : InternalRequest) : Bytes :=
  keyPrefix ++ ascii "inonce:" ++ r.service ++ ascii ":" ++ r.nonce

section Verify

variable {T : Type} [LinearOrder T] [AddCommGroup T] (cr : Crypto) (second : T)

/-- `time.Unix(ts, 0)` -/
def unix (ts : Int) : T := ts • second

/-- `Verify` before it asks for the nonce. -/
def Internal.check (i : Internal T) (now : T) (r : InternalRequest) : Except (InternalErr T) Unit :=
  if r.service ∉ i.services then .error (.serviceNotAllowed r.service)
  else
    match parseTimestamp r.timestamp with
    | none => .error .badTimestamp
    | some ts =>
      let d := |now - unix second ts|
      if d > i.skew then .error (.clockSkew d)
      else if r.nonce.length < minNonceLen then .error .nonceTooShort
      else if i.secrets.any fun s ↦ signPayload cr s (r.payload cr) = r.signature then .ok ()
      else .error .badSignature

variable {U : Type} (D : Driver Bytes Bytes T U)

/-- `Verify` -/
def Internal.verify (i : Internal T) (now : T) (r : InternalRequest) (fault : Fault) (s : D.State) :
    Except (InternalErr T) Unit × D.State :=
  match i.check cr second now r with
  | .error err => (.error err, s)
  | .ok () =>
    if fault = .before then (.error .unavailable, s)
    else
      let (fresh, s) := D.apply s now (.setNX (nonceKey r) (ascii "1") (2 • i.skew))
      if fault = .after then (.error .unavailable, s)
      else if fresh = .fresh true then (.ok (), s)
      else (.error .nonceReplayed, s)

/-- What happens to the store of nonces: calls of verifiers with the same skew, and its upkeep. -/
inductive VerifyEvent (T U : Type) where
  | verify (secrets services : List Bytes) (now : T) (r : InternalRequest) (fault : Fault)
  | upkeep (now : T) (u : U)

def VerifyEvent.time {T U : Type} : VerifyEvent T U → T
  | .verify _ _ now _ _ | .upkeep now _ => now

/-- What the calls return, in order, with their times and requests. -/
def outcomes (skew : T) (s : D.State) :
    List (VerifyEvent T U) → List (T × InternalRequest × Except (InternalErr T) Unit)
  | [] => []
  | .verify secrets services now r fault :: es =>
    let (res, s) := Internal.verify cr second D { secrets, services, skew } now r fault s
    (now, r, res) :: outcomes skew s es
  | .upkeep now u :: es => outcomes skew (D.maintain s now u) es

end Verify

/-! ### What the middleware receives -/

/-- The headers that the signature covers or that carry it. -/
inductive Header where
  | serviceName
  | timestamp
  | nonce
  | userId
  | platformId
  | signature
  deriving DecidableEq

/-- A request as it is received: the request line, the headers and the body. -/
structure Received where
  method : Bytes
  requestURI : Bytes
  header : Header → Option Bytes
  body : Bytes

/-- `c.GetHeader`: a missing header is empty. -/
def Received.getHeader (c : Received) (h : Header) : Bytes := (c.header h).getD []

/-- `InternalAuth.request` -/
def request (c : Received) : InternalRequest where
  service := c.getHeader .serviceName
  timestamp := c.getHeader .timestamp
  nonce := c.getHeader .nonce
  method := c.method
  rawPath := (cut 0x3f c.requestURI).1
  rawQuery := (cut 0x3f c.requestURI).2
  userId := c.getHeader .userId
  platformId := c.getHeader .platformId
  body := c.body
  signature := c.getHeader .signature

end Nexo.Auth
