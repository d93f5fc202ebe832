import Nexo.Lib.Table
import Nexo.Lib.Serial
import Nexo.Guarantees.Quota
import Nexo.Guarantees.Atomicity
import Nexo.Guarantees.Group
import Nexo.Guarantees.Paging
import Nexo.Guarantees.Read
import Nexo.Guarantees.Sync
import Nexo.Guarantees.Time
import Nexo.Guarantees.SendBytes
import Nexo.Guarantees.PresenceEvents
import Nexo.Guarantees.PresenceFairness
import Nexo.Guarantees.Snapshots
import Nexo.Guarantees.Cache
import Nexo.Guarantees.Signature
import Nexo.Guarantees.Replay
import Nexo.Guarantees.Tokens
import Nexo.Guarantees.Members
import Nexo.Guarantees.Pull
import Nexo.Guarantees.Routing
import Nexo.Guarantees.WebView
import Nexo.Guarantees.Push
import Nexo.Guarantees.Targets
import Nexo.Guarantees.Loops
import Nexo.Guarantees.Kick
import Nexo.Guarantees.Charges
import Nexo.Guarantees.Limiter
import Nexo.Guarantees.Registrations
import Nexo.Guarantees.Conversations
import Nexo.Guarantees.Wire
import Nexo.Guarantees.PresenceChunks
import Nexo.Guarantees.Merge
import Nexo.Guarantees.Ids
import Nexo.Guarantees.Arbitration
import Nexo.Guarantees.OnlineWrites
import Nexo.Guarantees.Shutdown
import Nexo.Guarantees.RefreshPool
import Nexo.Guarantees.Dispatcher
