import Nexo.Gateway.PresenceRuns

/-!
# The presence scheduler stays consistent

Whatever requests, events, turns of the dispatcher, results, removals, cancellations and the end of
the dispatcher follow each other, at whatever clock readings, the four structures of the scheduler
agree. The one thing that its own checks assume and that does not hold is that `remark` is set only
while a read is in flight: a read that ends after its client's `activeCtx` was cancelled leaves the
mark to the removal of the subscription that follows.
-/

namespace Nexo.Gateway

open Machine

namespace Presence

variable {L ι : Type} {env : OnlineEnv L} {p : Presence L}

/-- The path that `dispatchOnline` takes ends in a reachable state. -/
theorem Sound.dispatched {frames : L} {s : PresenceRun L} {p' : Presence L} {now wait : Int}
    (h : (presence ι env frames).Reachable s)
    (hdispatch : s.sched.dispatchOnline env now = some (p', wait)) : Sound p' := by
  obtain ⟨t, s', hpath, rfl⟩ := @path_dispatchOnline _ ι _ _ _ _ frames _ hdispatch
  exact sound (h.path hpath)

end Presence

open Presence

variable {L ι : Type} {env : OnlineEnv L} {frames : L}

namespace PresenceDemo

/-- A node whose frame limiter always has a token. -/
def openNode : OnlineEnv Unit where
  available := true
  uuidString := some
  reserve frames _ := (frames, none)

end PresenceDemo

end Nexo.Gateway
