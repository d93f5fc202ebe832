import Nexo.Store.Statement

/-!
# Errors

`errcode.Error` carries a numeric code, a message and a wrapped cause; the errors of the store and
the private rollback signal of the message service are the other values an `error` takes here.
`errors.Is` and `errors.AsType` walk the chain of causes, which only an `errcode.Error` continues.
-/

namespace Nexo

/-- The values of Go's `error` that the services handle. -/
inductive Err where
  /-- `errcode.Error` -/
  | code (code : ℕ) (message : String) (cause : Option Err)
  /-- An error of the store. -/
  | store (e : StoreErr)
  /-- `message.errRollback` -/
  | rollback


namespace Err

/-- `(*Error).Wrap` -/
def wrap : Err → Err → Err
  | code c m _, cause => code c m (some cause)
  | e, _ => e

/-- `(*Error).WithMessage` -/
def withMessage : Err → String → Err
  | code c _ cause, m => code c m cause
  | e, _ => e

/-- `errors.Is(err, target)` for a target that is an `errcode.Error`: some error of the chain has
its code. -/
def hasCode (n : ℕ) : Err → Bool
  | code c _ cause => c = n || match cause with
    | some e => hasCode n e
    | none => false
  | _ => false

/-- `errors.Is(err, target)` between two `errcode.Error`s. -/
def is (err target : Err) : Bool :=
  match target with
  | code n _ _ => err.hasCode n
  | _ => false

/-- `errcode.Or`: keep an `errcode.Error`, wrap anything else as the fallback. -/
def or (err fallback : Err) : Err :=
  match err with
  | code .. => err
  | _ => fallback.wrap err

end Err

namespace Errcode

abbrev errInvalidParam : Err := .code 10001 "invalid parameter" none
abbrev errTooManyRequests : Err := .code 10005 "too many requests" none
abbrev errNoPermission : Err := .code 10006 "no permission to access this resource" none
abbrev errStoreFailed : Err := .code 20002 "storage unavailable" none
abbrev errUserNotFound : Err := .code 10201 "user not found" none
abbrev errGroupNotFound : Err := .code 10301 "group not found" none
abbrev errGroupDismissed : Err := .code 10302 "group has been dismissed" none
abbrev errNotGroupMember : Err := .code 10303 "not a group member" none
abbrev errAlreadyGroupMember : Err := .code 10305 "already a group member" none
abbrev errNotGroupAdmin : Err := .code 10307 "not group admin" none
abbrev errCannotKickOwner : Err := .code 10308 "cannot kick group owner" none
abbrev errGroupFull : Err := .code 10309 "group member limit reached" none
abbrev errMessageContentTooLong : Err := .code 10403 "message content too large" none
abbrev errConversationNotFound : Err := .code 10501 "conversation not found" none
abbrev errConnOverLimit : Err := .code 10601 "connection over max limit" none
abbrev errConnClosed : Err := .code 10602 "connection closed" none
abbrev errInvalidProtocol : Err := .code 10603 "invalid protocol" none
abbrev errNodeDraining : Err := .code 10604 "node is shutting down" none
abbrev errSeqAllocFailed : Err := .code 20401 "seq allocation failed" none
abbrev errMessageSendFailed : Err := .code 20402 "message send failed" none
abbrev errMessagePullFailed : Err := .code 20403 "message pull failed" none

end Errcode

end Nexo
