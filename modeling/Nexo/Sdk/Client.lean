import Nexo.Auth.Internal
import Nexo.Lib.Url

/-!
# The client of the internal channel

`sdk/client.go`: how `Client.do` builds and signs a request to an internal route, up to the point
where the HTTP stack sends it. The stack transmits the request target, the headers and the body as
they are, and refuses a URL without a host; the time of signing and the nonce are inputs.
-/

namespace Nexo.Sdk

open Bytes Url Auth

/-- `apiPrefix` -/
def apiPrefix : Bytes := ascii "/api/v1"

/-- `url.Values`: keys and their values. -/
abbrev Values := List (Bytes × List Bytes)

/-- `Values.Encode` -/
def encode (q : Values) : Bytes :=
  join 0x26 ((q.mergeSort fun a b ↦ a.1 ≤ b.1).flatMap fun (k, vs) ↦
    vs.map fun v ↦ escape .queryComponent k ++ 0x3d :: escape .queryComponent v)

structure InternalAuth where
  service : Bytes
  secret : Bytes

structure Client where
  baseUrl : Bytes
  platformId : Int := 0
  internal : Option InternalAuth := none

/-- `New`, with the options for the platform and the internal channel. -/
def Client.new (baseUrl : Bytes) (platformId : Int) (internal : Option InternalAuth) : Client where
  baseUrl := (baseUrl.reverse.dropWhile (· = slash)).reverse
  platformId := platformId
  internal := internal

/-- The options of one request. -/
structure Options where
  userId : Bytes := []
  platformId : Int := 0

/-- What `do` is called with on an internal route; `body` is the encoded body, if there is one. -/
structure Call where
  method : Bytes
  path : Bytes
  query : Values := []
  body : Option Bytes := none
  options : Options := {}

/-- The URL of a call. -/
def Client.fullUrl (c : Client) (call : Call) : Bytes :=
  let rawQuery := encode call.query
  c.baseUrl ++ (apiPrefix ++ call.path) ++ if rawQuery ≠ [] then question :: rawQuery else []

/-- `X-Platform-Id`, if it is set: `cmp.Or(ro.platformId, c.platformId)`, when positive. -/
def Client.platformHeader (c : Client) (call : Call) : Option Bytes :=
  let platform := if call.options.platformId ≠ 0 then call.options.platformId else c.platformId
  if platform > 0 then some (ascii (Strconv.formatInt platform)) else none

/-- `X-User-Id`, if it is set. -/
def Call.userHeader (call : Call) : Option Bytes :=
  if call.options.userId ≠ [] then some call.options.userId else none

/-- The string that `sign` computes. -/
def Client.signString (cr : Crypto) (c : Client) (auth : InternalAuth) (call : Call) (url : URL)
    (ts nonce : Bytes) : Bytes :=
  join newline [auth.service, ts, nonce, call.method, url.escapedPath, url.rawQuery,
    call.userHeader.getD [], (c.platformHeader call).getD [], hex (cr.sha256 (call.body.getD []))]

/-- The headers that `do` and `sign` set. -/
def Client.headers (cr : Crypto) (c : Client) (auth : InternalAuth) (call : Call) (url : URL)
    (ts nonce : Bytes) : Header → Option Bytes
  | .serviceName => some auth.service
  | .timestamp => some ts
  | .nonce => some nonce
  | .userId => call.userHeader
  | .platformId => c.platformHeader call
  | .signature => some (hex (cr.hmac auth.secret (c.signString cr auth call url ts nonce)))

/-- `do` on an internal route, with the time and the nonce of `sign`: the string that is signed, and
what the server receives. `none` if no request is sent: the client has no internal channel, or the
URL does not parse or has no host. -/
def Client.doInternal (cr : Crypto) (authority : Bytes → Option Bytes) (fragmentOk : Bytes → Bool)
    (c : Client) (call : Call) (now : Int) (random : Bytes) : Option (Bytes × Received) :=
  c.internal.bind fun auth ↦
    (Parse authority fragmentOk (c.fullUrl call)).bind fun url ↦
      let ts := ascii (Strconv.formatInt now)
      let nonce := hex random
      if url.host = [] then none
      else some (c.signString cr auth call url ts nonce,
        { method := call.method, requestURI := url.requestURI,
          header := c.headers cr auth call url ts nonce, body := call.body.getD [] })

end Nexo.Sdk
