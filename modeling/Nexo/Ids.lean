import Nexo.Identity
import Nexo.Lib.Bytes
import Nexo.Lib.PairKey
import Nexo.Lib.Utf
import Nexo.Service.Paging
import Mathlib.Data.List.Sort

/-!
# Ids as the strings of Go and of JavaScript

The rest of this development has ids as texts. Go has byte strings, which need not be UTF-8: the
header of a request or a decoded body may hold any bytes. Here are the functions of `identity` and
`service/conv` that read and build ids on byte strings, with roles as any text (`identity.Role` is a
string type, and the role of a token is not checked before `UserId`); and the function of the web
client that builds the id of a conversation, on the UTF-16 units that JavaScript compares.
-/

namespace Nexo

open Bytes

namespace Identity.Raw

/-- `Role` -/
abbrev Role := Bytes

def roleUser : Role := ascii "user"
def roleAgent : Role := ascii "agent"

structure Actor where
  id : Int
  role : Role
  deriving DecidableEq

inductive Err where
  /-- `identity: unknown role %q` -/
  | unknownRole (role : Role)
  /-- `ErrInvalidUserId`: `%q` -/
  | invalidUserId (userId : Bytes)
  /-- `ErrInvalidUserId`: `unknown prefix in %q` -/
  | unknownPrefix (userId : Bytes)
  deriving DecidableEq

/-- `Actor.UserId` -/
def Actor.userId (a : Actor) : Except Err Bytes :=
  if a.role = roleUser then .ok (ascii prefixUser ++ ascii (Strconv.formatInt a.id))
  else if a.role = roleAgent then .ok (ascii prefixAgent ++ ascii (Strconv.formatInt a.id))
  else .error (.unknownRole a.role)

/-- The part of `ParseActor` after the prefix. -/
def parseDigits (userId : Bytes) (role : Role) (digits : Bytes) : Except Err Actor :=
  match Strconv.parseInt (Conv.chars digits) with
  | none => .error (.invalidUserId userId)
  | some id =>
    if id ≤ 0 ∨ ascii (Strconv.formatInt id) ≠ digits then .error (.invalidUserId userId)
    else .ok ⟨id, role⟩

/-- `ParseActor` -/
def parseActor (userId : Bytes) : Except Err Actor :=
  if userId.length ≤ prefixLength then .error (.invalidUserId userId)
  else if userId.take prefixLength = ascii prefixUser then
    parseDigits userId roleUser (userId.drop prefixLength)
  else if userId.take prefixLength = ascii prefixAgent then
    parseDigits userId roleAgent (userId.drop prefixLength)
  else .error (.unknownPrefix userId)

/-- `NativeUserId` -/
def nativeUserId (uuid : Bytes) : Bytes := ascii prefixNative ++ uuid

/-- `Valid`. `uuidString s` is `uuid.Parse(s)` followed by `String()`. -/
def valid (uuidString : Bytes → Option Bytes) (userId : Bytes) : Bool :=
  if userId.length ≤ prefixLength ∨ Conv.colon ∈ userId then false
  else if userId.take prefixLength = ascii prefixUser ∨ userId.take prefixLength = ascii prefixAgent then
    (parseActor userId).isOk
  else if userId.take prefixLength = ascii prefixNative then
    uuidString (userId.drop prefixLength) = some (userId.drop prefixLength)
  else false

/-! ### UUIDs -/

def dash : UInt8 := 0x2d

/-- `0`–`9` and `a`–`f` -/
def lowerHex (b : UInt8) : Bool := (48 ≤ b && b ≤ 57) || (97 ≤ b && b ≤ 102)

/-- **A canonical UUID**: groups of 8, 4, 4, 4 and 12 lower-case hexadecimal digits, with dashes
between them. -/
def IsUuid (u : Bytes) : Prop :=
  (u.splitOn dash).map List.length = [8, 4, 4, 4, 12] ∧ ∀ group ∈ u.splitOn dash, group.all lowerHex

instance (u : Bytes) : Decidable (IsUuid u) := inferInstanceAs (Decidable (_ ∧ _))

/-- **What is assumed of the package `uuid`**: `Parse` accepts canonical UUIDs, and `String` prints
what was parsed in canonical form. -/
structure UuidPackage (uuidString : Bytes → Option Bytes) : Prop where
  accepts : ∀ u, IsUuid u → uuidString u = some u
  prints : ∀ s u, uuidString s = some u → IsUuid u

end Identity.Raw

namespace Conv.Raw

/-- `conv.Single` -/
def single (a b : Bytes) : Bytes :=
  let (a, b) := if b < a then (b, a) else (a, b)
  ascii "si_" ++ a ++ ascii ":" ++ b

/-- `conv.Group` -/
def group (groupId : Bytes) : Bytes := ascii "sg_" ++ groupId

end Conv.Raw

namespace Web

/-- `directId`: `sort` compares strings by their units. -/
def directId (a b : List UInt16) : List UInt16 :=
  Utf.utf16 "si_" ++ (Utf.utf16 ":").intercalate ([a, b].insertionSort fun x y ↦ ¬ y < x)

end Web

end Nexo
