import Nexo.Auth.Internal
import Nexo.Lib.Machine

/-!
# Native tokens

`tokenstore/tokenstore.go` and `Issue`, `Revoke` and `Check` of `auth/native.go`, over any driver of
an expiring map, whose calls may fail before or after their effect. The signing of a token is a
parameter (`jwt`, which may fail); instants are those of the driver.

The **machine of tokens** (`TokenState`, `TokenEvent`) interleaves calls of any number of servers.
An `Issue` is two steps, since the clock moves and other calls come in between its reading of the
clock and its `Set`. Token ids are `uuid.NewV7` texts; they never repeat.
-/

namespace Nexo.Auth

open Bytes Expiring

/-- `tokenstore.key` -/
def tokenKey (userId : Bytes) (platformId : Int) : Bytes :=
  keyPrefix ++ ascii "tok:" ++ userId ++ ascii ":" ++ ascii (Strconv.formatInt platformId)

inductive NativeErr where
  /-- `auth: sign` -/
  | sign
  /-- `ErrUnavailable` -/
  | unavailable
  /-- `ErrTokenExpired`: superseded -/
  | superseded
  deriving DecidableEq

structure NativeClaims (T : Type) where
  platformId : Int
  subject : Bytes
  id : Bytes
  issuedAt : T
  expiresAt : T
  deriving DecidableEq

structure Native (T : Type) where
  secret : Bytes
  ttl : T
  deriving DecidableEq

section Calls

variable {T U : Type} [LinearOrder T] [AddCommGroup T] (D : Driver Bytes Bytes T U)

/-- A call of the cache, and its result unless it fails. -/
def cacheCall (now : T) (op : Op Bytes Bytes T) (fault : Fault) (s : D.State) :
    Option (Result Bytes) × D.State :=
  match fault with
  | .before => (none, s)
  | .after => (none, (D.apply s now op).2)
  | .none => (some (D.apply s now op).1, (D.apply s now op).2)

/-- The claims of the token that `Issue` signs. -/
def Native.claims (n : Native T) (now : T) (userId : Bytes) (platformId : Int) (id : Bytes) :
    NativeClaims T where
  platformId := platformId
  subject := userId
  id := id
  issuedAt := now
  expiresAt := now + n.ttl

/-- `Issue`, which reads the clock at `now` and whose `Set` the cache makes at `setAt`. -/
def Native.issue (jwt : Bytes → NativeClaims T → Option Bytes) (n : Native T) (now setAt : T)
    (userId : Bytes) (platformId : Int) (id : Bytes) (fault : Fault) (s : D.State) :
    Except NativeErr (Bytes × T) × D.State :=
  let claims := n.claims now userId platformId id
  match jwt n.secret claims with
  | none => (.error .sign, s)
  | some token =>
    match cacheCall D setAt (.set (tokenKey userId platformId) claims.id n.ttl) fault s with
    | (none, s) => (.error .unavailable, s)
    | (some _, s) => (.ok (token, claims.expiresAt), s)

/-- `Revoke` -/
def Native.revoke (now : T) (userId : Bytes) (platformId : Int) (tokenId : Bytes) (fault : Fault)
    (s : D.State) : Except NativeErr Unit × D.State :=
  match cacheCall D now (.delIfValue (tokenKey userId platformId) tokenId) fault s with
  | (none, s) => (.error .unavailable, s)
  | (some _, s) => (.ok (), s)

/-- `Check` -/
def Native.check (now : T) (userId : Bytes) (platformId : Int) (tokenId : Bytes) (fault : Fault)
    (s : D.State) : Except NativeErr Unit × D.State :=
  match cacheCall D now (.get (tokenKey userId platformId)) fault s with
  | (none, s) => (.error .unavailable, s)
  | (some cur, s) => (if cur = .value (some tokenId) then .ok () else .error .superseded, s)

end Calls

/-! ### The machine of tokens -/

/-- What took effect in the cache. -/
inductive TokenEffect (T : Type) where
  | set (userId : Bytes) (platformId : Int) (id : Bytes) (setAt ttl : T)
  | revoked (userId : Bytes) (platformId : Int) (id : Bytes)
  deriving DecidableEq

/-- An `Issue` that has read the clock and made its id. -/
structure Issuing (T : Type) where
  native : Native T
  now : T
  userId : Bytes
  platformId : Int
  id : Bytes
  deriving DecidableEq

section Machine

variable {T U : Type} [LinearOrder T] [AddCommGroup T] (D : Driver Bytes Bytes T U)

structure TokenState where
  clock : T
  store : D.State
  issuing : List (Issuing T) := []
  /-- The ids made so far. -/
  made : List Bytes := []
  /-- What took effect, newest first. -/
  log : List (TokenEffect T) := []

inductive TokenEvent (T U : Type) where
  /-- `Issue` begins. -/
  | start (native : Native T) (userId : Bytes) (platformId : Int) (id : Bytes)
  /-- The `i`-th `Issue` under way signs, calls `Set` and returns. -/
  | issue (i : ℕ) (fault : Fault)
  | revoke (userId : Bytes) (platformId : Int) (id : Bytes) (fault : Fault)
  | check (userId : Bytes) (platformId : Int) (id : Bytes) (fault : Fault)
  | upkeep (u : U)
  | tick (clock : T)

variable (jwt : Bytes → NativeClaims T → Option Bytes)

variable {D} in
def TokenState.next (σ : TokenState D) : TokenEvent T U → Option (TokenState D)
  | .start native userId platformId id =>
    if id ∈ σ.made then none
    else some { σ with
      issuing := σ.issuing ++ [⟨native, σ.clock, userId, platformId, id⟩], made := id :: σ.made }
  | .issue i fault =>
    σ.issuing[i]?.map fun c ↦ { σ with
      store := (c.native.issue D jwt c.now σ.clock c.userId c.platformId c.id fault σ.store).2
      issuing := σ.issuing.eraseIdx i
      log :=
        if (jwt c.native.secret (c.native.claims c.now c.userId c.platformId c.id)).isSome ∧
            fault ≠ .before then
          .set c.userId c.platformId c.id σ.clock c.native.ttl :: σ.log
        else σ.log }
  | .revoke userId platformId id fault => some { σ with
      store := (Native.revoke D σ.clock userId platformId id fault σ.store).2
      log := if fault ≠ .before then .revoked userId platformId id :: σ.log else σ.log }
  | .check userId platformId id fault => some { σ with
      store := (Native.check D σ.clock userId platformId id fault σ.store).2 }
  | .upkeep u => some { σ with store := D.maintain σ.store σ.clock u }
  | .tick clock => if σ.clock ≤ clock then some { σ with clock } else none

/-- The machine, from an empty cache. -/
def tokenSystem (clock : T) : Machine.System (TokenState D) (TokenEvent T U) :=
  .guarded { clock, store := D.new } (TokenState.next jwt)

variable {D}

/-- The token passes `Check`. -/
def TokenState.passes (σ : TokenState D) (userId : Bytes) (platformId : Int) (id : Bytes) : Prop :=
  (Native.check D σ.clock userId platformId id .none σ.store).1 = .ok ()

end Machine

end Nexo.Auth
