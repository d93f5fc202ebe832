import Nexo.Lib.Bytes
import Nexo.Service.Message

/-!
# The configuration of a node

`config`: the fields that `Config.Validate` reads, and its checks in their order. A check that fails
adds a fault and the rest go on; a configuration is accepted when there is none. `Validate` does not
read `node_id`, which `decode` takes from the file or the environment and else from the host name.

A duration is in nanoseconds. Parsing of networks (`net.ParseCIDR`) and of MySQL data source names
(`mysql.ParseDSN`) are parameters.
-/

namespace Nexo

/-! ### Fields -/

structure ServerConfig where
  addr : String := ":8080"
  trustedProxies : List String := []

structure DbConfig where
  driver : String := "postgres"
  access : String := "sqlc"
  dsn : String := ""
  maxOpenConns : Int := 30
  injected : Bool := false

structure OnlineStoreConfig where
  driver : String := "db"
  ttl : Int := 60000000000
  renewInterval : Int := 20000000000

structure CacheConfig where
  driver : String := "local"
  cleanerInterval : Int := 60000000000

structure OfflinePushConfig where
  driver : String := "noop"
  webhookUrl : String := ""
  webhookSecret : String := ""

structure AuthConfig where
  providers : List String := ["native"]
  injected : Bool := false
  defaultPlatformId : Int := 5
  externalJwtSecrets : List String := []
  nativeSecret : String := ""
  nativeExpireHours : Int := 168

structure InternalAuthConfig where
  enabled : Bool := false
  secret : String := ""
  secrets : List String := []
  allowedServices : List String := []
  maxSkewSeconds : Int := 300

structure WsConfig where
  maxFrameBytes : Int := 65536
  sendQueue : Int := 256
  pingInterval : Int := 30000000000
  pongWait : Int := 75000000000
  deliverWorkers : Int := 8
  deliverQueue : Int := 1024

structure LimitsConfig where
  maxContentBytes : Int := 8192
  pullPageMax : Int := 100
  conversationPageMax : Int := 100
  maxSeqsPageMax : Int := 200
  groupMaxMembers : Int := 500
  authPerIpPerMin : Int := 0

/-- `config.Config`, with the values of `setDefaults`. -/
structure NodeConfig where
  nodeId : Bytes
  server : ServerConfig := {}
  db : DbConfig := {}
  redisAddr : String := ""
  busDriver : String := "local"
  onlineStore : OnlineStoreConfig := {}
  cache : CacheConfig := {}
  offlinePush : OfflinePushConfig := {}
  auth : AuthConfig := {}
  internalAuth : InternalAuthConfig := {}
  ws : WsConfig := {}
  limits : LimitsConfig := {}

/-- `InternalAuthConfig.AllSecrets` -/
def InternalAuthConfig.allSecrets (c : InternalAuthConfig) : List String :=
  (c.secrets ++ [c.secret]).filter (· ≠ "")

/-! ### Faults -/

/-- What `Validate` reports; the texts with a quoted value keep the value. -/
inductive Fault where
  | text (message : String)
  /-- `<field>=<value>, want one of <allowed>` -/
  | notOneOf (field value : String) (allowed : List String)
  /-- `server.trusted_proxies: <raw> is not a CIDR` -/
  | notCidr (raw : String)
  /-- `cache.cleaner_interval must be 0 (disabled) or >= 1s, got <interval>` -/
  | cleanerInterval (interval : Int)
  /-- `auth.providers: unknown provider <provider>` -/
  | unknownProvider (provider : String)
  deriving DecidableEq

def minSecretLen : ℕ := 32
def mysqlTextMax : Int := 65535

def devSecrets : List String :=
  ["change-me", "compose-dev-secret", "dev-only-secret-not-for-production"]

def weakSecret (s : String) : Bool := s.utf8ByteSize < minSecretLen || s ∈ devSecrets

/-- The libraries that `Validate` calls. -/
structure ConfigLibs where
  /-- whether `net.ParseCIDR` takes the text, white space around it removed -/
  parseCidr : String → Bool
  /-- `mysql.ParseDSN`: `ClientFoundRows` and `ParseTime` -/
  parseDsn : String → Option (Bool × Bool)

/-- A fault, when the condition holds. -/
def check (cond : Bool) (message : String) : List Fault := if cond then [.text message] else []

/-- `oneOf` -/
def oneOf (field value : String) (allowed : List String) : List Fault :=
  if value ∈ allowed then [] else [.notOneOf field value allowed]

/-! ### The checks -/

/-- The first entry that is not a network. -/
def ServerConfig.faults (libs : ConfigLibs) (c : ServerConfig) : List Fault :=
  check (c.addr = "") "server.addr is required" ++
    ((c.trustedProxies.find? fun raw ↦ !libs.parseCidr raw).map Fault.notCidr).toList

/-- `DbConfig.validate` -/
def DbConfig.validate (libs : ConfigLibs) (d : DbConfig) : List Fault :=
  oneOf "db.driver" d.driver ["postgres", "mysql"] ++
  oneOf "db.access" d.access ["gorm", "sqlc"] ++
  check (d.dsn = "" && !d.injected) "db.dsn is required" ++
  check (d.driver = "mysql" && d.access ≠ "gorm") "db.driver=mysql requires db.access=gorm" ++
  check (d.maxOpenConns ≤ 0) "db.max_open_conns must be > 0" ++
  if d.driver = "mysql" ∧ d.dsn ≠ "" then
    match libs.parseDsn d.dsn with
    | none => [.text "db.dsn is not a valid mysql DSN"]
    | some (true, _) => [.text "db.dsn must not enable clientFoundRows"]
    | some (false, false) => [.text "db.dsn must set parseTime=true"]
    | some (false, true) => []
  else []

/-- The faults so far, and which provider uses a secret. -/
structure SecretScan where
  faults : List Fault := []
  secrets : List (String × String) := []

/-- A fault, when another provider uses the secret. -/
def SecretScan.shared (scan : SecretScan) (provider secret : String) : List Fault :=
  match scan.secrets.lookup secret with
  | some prev => [.text ("auth: " ++ provider ++ " shares a secret with " ++ prev)]
  | none => []

/-- One secret of `external_jwt`. -/
def SecretScan.external (scan : SecretScan) (secret : String) : SecretScan where
  faults := scan.faults ++
    if weakSecret secret then
      [.text "auth.external_jwt.secrets contains a published placeholder or a secret shorter than 32 chars"]
    else scan.shared "external_jwt" secret
  secrets := (secret, "external_jwt") :: scan.secrets

/-- One entry of `auth.providers`. -/
def SecretScan.provider (c : AuthConfig) (scan : SecretScan) (p : String) : SecretScan :=
  if p = "external_jwt" then
    let required := check c.externalJwtSecrets.isEmpty "auth.external_jwt.secrets is required"
    c.externalJwtSecrets.foldl SecretScan.external { scan with faults := scan.faults ++ required }
  else if p = "native" then
    let s := c.nativeSecret
    let expiry := check (c.nativeExpireHours ≤ 0) "auth.native.expire_hours must be > 0"
    if s = "" then
      { scan with faults := scan.faults ++ [.text "auth.native.secret is required"] ++ expiry }
    else if weakSecret s then
      { scan with faults := scan.faults ++ [.text ("auth.native.secret is a published placeholder " ++
          "or shorter than 32 chars; set a real secret (env NEXO_AUTH_NATIVE_SECRET)")] ++ expiry }
    else
      ⟨scan.faults ++ scan.shared "native" s ++ expiry, (s, "native") :: scan.secrets⟩
  else { scan with faults := scan.faults ++ [.unknownProvider p] }

def AuthConfig.faults (c : AuthConfig) : List Fault :=
  check (c.providers.isEmpty && !c.injected) "auth.providers must not be empty" ++
  (c.providers.foldl (SecretScan.provider c) {}).faults ++
  check (c.defaultPlatformId ≤ 0) "auth.default_platform_id must be > 0"

def InternalAuthConfig.faults (c : InternalAuthConfig) : List Fault :=
  if c.enabled then
    check c.allSecrets.isEmpty
      "internal_auth.secret or internal_auth.secrets is required when enabled" ++
    check (c.allSecrets.any weakSecret)
      "internal_auth: every secret must be >= 32 chars and not a published placeholder" ++
    check c.allowedServices.isEmpty "internal_auth.allowed_services must not be empty when enabled" ++
    check (c.maxSkewSeconds ≤ 0) "internal_auth.max_skew_seconds must be > 0"
  else []

/-- A node-local cache next to a bus that other nodes read. -/
def NodeConfig.localCacheFaults (c : NodeConfig) : List Fault :=
  let multiNode := "cache.driver=local with bus.driver=" ++ c.busDriver ++ " (multi-node): "
  if c.busDriver ≠ "local" ∧ c.cache.driver = "local" then
    check ("native" ∈ c.auth.providers) (multiNode ++ "native tokens are only valid on the node " ++
      "that issued them; use cache.driver=redis or pg") ++
    check c.internalAuth.enabled (multiNode ++ "internal_auth nonce replay protection does not " ++
      "span nodes; use cache.driver=redis or pg")
  else []

/-- `Config.Validate`: all faults. -/
def NodeConfig.validate (libs : ConfigLibs) (c : NodeConfig) : List Fault :=
  c.server.faults libs ++ c.db.validate libs ++
  check (c.db.dsn = "" && c.db.injected && (c.busDriver = "postgres" || c.cache.driver = "pg"))
    ("bus.driver=postgres and cache.driver=pg open their own connections: " ++
      "db.dsn is required even with an injected db") ++
  oneOf "bus.driver" c.busDriver ["redis", "postgres", "local"] ++
  oneOf "online_store.driver" c.onlineStore.driver ["db", "redis"] ++
  oneOf "cache.driver" c.cache.driver ["redis", "pg", "local"] ++
  oneOf "offline_push.driver" c.offlinePush.driver ["noop", "webhook"] ++
  check (c.busDriver = "postgres" && c.db.driver ≠ "postgres")
    "bus.driver=postgres requires db.driver=postgres" ++
  check (c.cache.driver = "pg" && c.db.driver ≠ "postgres")
    "cache.driver=pg requires db.driver=postgres" ++
  check ((c.busDriver = "redis" || c.onlineStore.driver = "redis" || c.cache.driver = "redis") &&
    c.redisAddr = "") "bus/online_store/cache=redis requires redis.addr" ++
  c.localCacheFaults ++
  (if 0 < c.cache.cleanerInterval ∧ c.cache.cleanerInterval < 1000000000 then
    [.cleanerInterval c.cache.cleanerInterval] else []) ++
  check (c.onlineStore.ttl ≤ 0 || c.onlineStore.renewInterval ≤ 0 ||
    c.onlineStore.ttl ≤ c.onlineStore.renewInterval) "online_store: need 0 < renew_interval < ttl" ++
  (if c.offlinePush.driver = "webhook" then
    check (!"https://".toList.isPrefixOf c.offlinePush.webhookUrl.toList)
      "offline_push.webhook_url must start with https://" ++
    check (c.offlinePush.webhookSecret = "")
      "offline_push.webhook_secret is required for webhook driver" else []) ++
  c.auth.faults ++ c.internalAuth.faults ++
  check (c.ws.maxFrameBytes ≤ 0 || c.ws.sendQueue ≤ 0 || c.ws.pingInterval ≤ 0 ||
    c.ws.pongWait ≤ c.ws.pingInterval)
    "ws: need max_frame_bytes>0, send_queue>0, 0 < ping_interval < pong_wait" ++
  check (c.ws.deliverWorkers ≤ 0 || c.ws.deliverQueue ≤ 0)
    "ws: need deliver_workers>0, deliver_queue>0" ++
  check (c.limits.maxContentBytes ≤ 0 || c.limits.pullPageMax ≤ 0 ||
    c.limits.conversationPageMax ≤ 0 || c.limits.maxSeqsPageMax ≤ 0 || c.limits.groupMaxMembers ≤ 0)
    "limits: content/page/group limits must be > 0" ++
  check (c.db.driver = "mysql" && mysqlTextMax < c.limits.maxContentBytes)
    "limits.max_content_bytes must be <= 65535 on mysql (messages.content is TEXT)" ++
  check (c.limits.authPerIpPerMin < 0) "limits.auth_per_ip_per_min must be >= 0"

/-- `Validate` returns no error. -/
def NodeConfig.Accepted (libs : ConfigLibs) (c : NodeConfig) : Prop := c.validate libs = []

instance (libs : ConfigLibs) (c : NodeConfig) : Decidable (c.Accepted libs) :=
  inferInstanceAs (Decidable (_ = _))

/-- **No node id is refused.** -/
theorem NodeConfig.accepted_nodeId {libs : ConfigLibs} {c : NodeConfig} (nodeId : Bytes) :
    { c with nodeId }.Accepted libs ↔ c.Accepted libs :=
  Iff.rfl

/-! ### What the services get of it -/

/-- The configuration that `app.Build` gives to the services, with a pusher and the libraries. -/
def NodeConfig.services (c : NodeConfig) (pusher : Bool) (uuidString : String → Option String)
    (jsonValid : String → Bool) : Config where
  maxContentBytes := c.limits.maxContentBytes
  maxMembers := c.limits.groupMaxMembers
  pusher := pusher
  uuidString := uuidString
  jsonValid := jsonValid

end Nexo
