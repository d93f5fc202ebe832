import Nexo.Lib.Expiring
import Nexo.Lib.Table

/-!
# The cache drivers

`cache/local` is a Go map under a mutex, from which an expired entry is dropped when it is looked up
or swept; `cache/pg` is a table of rows on which expired rows stay until `Cleanup` finds them. Each
operation is one critical section or one SQL statement, at one reading of one clock. Go's zero time
and SQL's `NULL`, which both stand for "no expiry", are `none`.

Both are drivers of the abstract expiring map (`localDriver`, `pgDriver`).
-/

namespace Nexo.Cache

open Expiring Relational Function Option

variable {K V T : Type} [DecidableEq K]

/-- The upkeep of the drivers: the ticks of `sweep`, and `Cleanup` with its `limit_rows`, skipping
the rows that are locked. Either is nothing to the other driver. -/
inductive Upkeep (K : Type) where
  | sweep
  | cleanup (limitRows : ℕ) (locked : K → Bool)

/-! ### The map in memory -/

namespace Local

variable [LinearOrder T]

/-- `Cache.m` -/
abbrev Entries (K V T : Type) := Map K V T

/-- `Cache.get` -/
def lookup (c : Entries K V T) (now : T) (key : K) : Option (Entry V T) × Entries K V T :=
  match c key with
  | none => (none, c)
  | some e => if e.alive now then (some e, c) else (none, Function.update c key none)

/-- **`Cache.get`** finds what is left under the key, and drops only what is not. -/
theorem lookup_spec (c : Entries K V T) (now : T) (key : K) :
    (lookup c now key).1 = c.forget now key ∧ (lookup c now key).2.forget now = c.forget now := by
  rcases h : c key with - | e
  · simp [lookup, Map.forget, h]
  · by_cases ha : e.alive now = true
    · simp [lookup, Map.forget, h, ha, filter_some]
    · have hnone : c.forget now key = none := by simp [Map.forget, h, ha]
      have hlookup : lookup c now key = (none, update c key none) := by
        simp [lookup, h, ha]
      rw [hlookup, hnone, Map.forget_update]
      exact ⟨rfl, by rw [filter_none, ← hnone, update_eq_self]⟩

/-- `Cache.Get`; `none` stands for an empty value and `false`. -/
def get (c : Entries K V T) (now : T) (key : K) : Option V × Entries K V T :=
  let (e, c) := lookup c now key
  (e.map (·.val), c)

/-- A tick of `sweep`: `maps.DeleteFunc` with `!e.alive(now)`. -/
def sweep (c : Entries K V T) (now : T) : Entries K V T := fun key ↦ (c key).filter (Entry.alive now)

variable [AddCommGroup T]

/-- `expiry` -/
def expiry (now ttl : T) : Option T := if ttl ≤ 0 then none else some (now + ttl)

/-- `Cache.Set` -/
def set (c : Entries K V T) (now : T) (key : K) (val : V) (ttl : T) : Entries K V T :=
  Function.update c key (some { val, exp := expiry now ttl })

/-- `Cache.SetNX` -/
def setNX (c : Entries K V T) (now : T) (key : K) (val : V) (ttl : T) : Bool × Entries K V T :=
  match lookup c now key with
  | (some _, c) => (false, c)
  | (none, c) => (true, Function.update c key (some { val, exp := expiry now ttl }))

variable [DecidableEq V]

/-- `Cache.DelIfValue` -/
def delIfValue (c : Entries K V T) (now : T) (key : K) (expected : V) : Entries K V T :=
  match lookup c now key with
  | (some e, c) => if e.val = expected then Function.update c key none else c
  | (none, c) => c

/-- The operations by name. -/
def apply (c : Entries K V T) (now : T) : Op K V T → Result V × Entries K V T
  | .get key => let (v, c) := get c now key; (.value v, c)
  | .set key val ttl => (.done, set c now key val ttl)
  | .setNX key val ttl => let (ok, c) := setNX c now key val ttl; (.fresh ok, c)
  | .delIfValue key expected => (.done, delIfValue c now key expected)

def maintain (c : Entries K V T) (now : T) : Upkeep K → Entries K V T
  | .sweep => sweep c now
  | .cleanup _ _ => c

theorem apply_eq (c : Entries K V T) (now : T) (op : Op K V T) :
    (apply c now op).1 = ((c.forget now).apply now op).1 ∧
      (apply c now op).2.forget now = ((c.forget now).apply now op).2.forget now := by
  have hidem := c.forget_forget (le_refl now)
  cases op with
  | get key =>
    obtain ⟨hfound, hleft⟩ := lookup_spec c now key
    refine ⟨?_, hleft.trans hidem.symm⟩
    simp only [apply, get, Map.apply, hfound]
  | set key val ttl =>
    refine ⟨rfl, ?_⟩
    simp only [apply, set, Map.apply, Map.forget_update, hidem]
    rfl
  | setNX key val ttl =>
    obtain ⟨hfound, hleft⟩ := lookup_spec c now key
    simp only [apply, setNX, Map.apply]
    rcases hlookup : lookup c now key with ⟨- | e, c'⟩ <;> rw [hlookup] at hfound hleft <;>
      rw [← hfound]
    · refine ⟨rfl, ?_⟩
      simp only [isSome_none, Bool.false_eq_true, if_false, Map.forget_update, hidem, hleft]
      rfl
    · exact ⟨rfl, hleft.trans hidem.symm⟩
  | delIfValue key expected =>
    obtain ⟨hfound, hleft⟩ := lookup_spec c now key
    refine ⟨rfl, ?_⟩
    simp only [apply, delIfValue, Map.apply]
    rcases hlookup : lookup c now key with ⟨- | e, c'⟩ <;> rw [hlookup] at hfound hleft <;>
      rw [← hfound]
    · exact hleft.trans hidem.symm
    · simp only [map_some, some.injEq]
      split
      · rw [Map.forget_update, Map.forget_update, hidem, hleft]
      · exact hleft.trans hidem.symm

end Local

/-- **The local driver.** -/
def localDriver (K V T : Type) [DecidableEq K] [DecidableEq V] [LinearOrder T] [AddCommGroup T] :
    Driver K V T (Upkeep K) where
  State := Local.Entries K V T
  new _ := none
  apply := Local.apply
  maintain := Local.maintain
  view := id
  view_new _ := rfl
  result c now op := (Local.apply_eq c now op).1
  view_apply c now op := (Local.apply_eq c now op).2
  view_maintain c now u := by
    cases u with
    | sweep => exact c.forget_forget (le_refl now)
    | cleanup => rfl

/-! ### The table -/

namespace Pg

/-- A row of `cache`. -/
structure Row (K V T : Type) where
  key : K
  value : V
  expiresAt : Option T
  updatedAt : T
  deriving DecidableEq

def Row.keys (r : Row K V T) : List K := [r.key]

abbrev Rows (K V T : Type) := Table (Row K V T) K Row.keys

theorem key_eq_of_get {t : Rows K V T} {key : K} {r : Row K V T} (h : t.get key = some r) :
    r.key = key := by
  simpa [Row.keys, eq_comm] using Table.mem_keys_of_get h

/-- `DO UPDATE SET value = EXCLUDED.value, expires_at = EXCLUDED.expires_at, updated_at = now()` -/
def Row.overwrite (row r : Row K V T) : Row K V T :=
  { r with value := row.value, expiresAt := row.expiresAt, updatedAt := row.updatedAt }

omit [DecidableEq K] in
theorem Row.keys_overwrite (row r : Row K V T) : (row.overwrite r).keys = r.keys := rfl

/-- `INSERT ... ON CONFLICT (key) DO UPDATE SET ... WHERE`, and whether it touched a row. -/
def upsert (t : Rows K V T) (row : Row K V T) (cond : Row K V T → Bool) : Bool × Rows K V T :=
  match t.get row.key with
  | none => (true, t.insert row)
  | some r =>
    if cond r then
      (true, t.update (fun r ↦ r.key = row.key) row.overwrite row.keys_overwrite)
    else (false, t)

/-- **What an upsert does**: it touches no row exactly when the one in its way fails the condition,
and otherwise its own row is there. -/
theorem upsert_spec (t : Rows K V T) (row : Row K V T) (cond : Row K V T → Bool) :
    (upsert t row cond).1 = (t.get row.key).all cond ∧
      ∀ key, (upsert t row cond).2.get key =
        if key = row.key ∧ (upsert t row cond).1 = true then some row else t.get key := by
  rcases h : t.get row.key with - | r
  · simp only [upsert, h, all_none, true_and, and_true]
    intro key
    have hkeys : Row.keys row = [row.key] := rfl
    rw [Table.get_insert_single hkeys, h]
    rfl
  · rcases hc : cond r with - | -
    · simp [upsert, h, hc]
    · simp only [upsert, h, hc, if_true, all_some, true_and, and_true]
      intro key
      rw [Table.get_update row.keys_overwrite]
      split_ifs with hkey
      · subst hkey
        have hr := key_eq_of_get h
        rw [h, map_some, if_pos (by simpa using hr), Row.overwrite, hr]
      · rcases hg : t.get key with - | r'
        · rfl
        · rw [map_some, if_neg]
          simpa [key_eq_of_get hg] using hkey

/-- What a row holds. -/
def Row.entry (r : Row K V T) : Entry V T := ⟨r.value, r.expiresAt⟩

/-- What the table holds. -/
def view (t : Rows K V T) : Map K V T := fun key ↦ (t.get key).map Row.entry

/-- An upsert that touches a row writes its key; one that does not changes nothing. -/
theorem view_upsert (t : Rows K V T) (row : Row K V T) (cond : Row K V T → Bool) :
    view (upsert t row cond).2 =
      if (upsert t row cond).1 = true then update (view t) row.key (some row.entry)
      else view t := by
  funext key
  rw [view, (upsert_spec t row cond).2 key]
  split_ifs with h htouched htouched
  · rw [h.1, update_self]
    rfl
  · exact absurd h.2 htouched
  · rw [update_of_ne fun hkey ↦ h ⟨hkey, htouched⟩]
    rfl
  · rfl

section

variable [LinearOrder T]

/-- `expires_at IS NULL OR expires_at > now()` -/
def Row.alive (r : Row K V T) (now : T) : Bool :=
  match r.expiresAt with
  | none => true
  | some t => t > now

/-- `expires_at IS NOT NULL AND expires_at <= now()` -/
def Row.expired (r : Row K V T) (now : T) : Bool :=
  match r.expiresAt with
  | none => false
  | some t => t ≤ now

omit [DecidableEq K] in
theorem Row.expired_eq (r : Row K V T) (now : T) : r.expired now = !r.alive now := by
  rcases h : r.expiresAt with - | t
  · simp [expired, alive, h]
  · rcases le_or_gt t now with hle | hlt
    · simp [expired, alive, h, hle]
    · simp [expired, alive, h, hlt]

/-- `ORDER BY expires_at`, of rows that have one. -/
def Row.before (r r' : Row K V T) : Bool :=
  match r.expiresAt, r'.expiresAt with
  | some t, some t' => t ≤ t'
  | _, _ => true

/-- `Get` -/
def get (t : Rows K V T) (now : T) (key : K) : Option V :=
  ((t.get key).filter (·.alive now)).map (·.value)

/-- `DelIfValue` -/
def delIfValue [DecidableEq V] (t : Rows K V T) (now : T) (key : K) (value : V) : Rows K V T :=
  t.delete fun r ↦ r.key = key && r.value = value && r.alive now

/-- The rows that `Cleanup` selects `FOR UPDATE SKIP LOCKED`. -/
def expiredRows (t : Rows K V T) (now : T) (limitRows : ℕ) (locked : K → Bool) : List (Row K V T) :=
  ((t.rows.filter fun r ↦ r.expired now && !locked r.key).mergeSort Row.before).take limitRows

/-- `Cleanup`, with its `deleted_count`. -/
def cleanup (t : Rows K V T) (now : T) (limitRows : ℕ) (locked : K → Bool) : ℕ × Rows K V T :=
  let expired := expiredRows t now limitRows locked
  (expired.length, t.delete fun r ↦ r.key ∈ expired.map (·.key))

omit [DecidableEq K] in
theorem Row.alive_entry (r : Row K V T) (now : T) : r.entry.alive now = r.alive now := rfl

theorem forget_view (t : Rows K V T) (now : T) (key : K) :
    (view t).forget now key = ((t.get key).filter (·.alive now)).map Row.entry := by
  rcases h : t.get key with - | r
  · simp [view, Map.forget, h]
  · by_cases ha : r.alive now = true
    · simp [view, Map.forget, h, filter_some, Row.alive_entry, ha]
    · simp [view, Map.forget, h, filter_some, Row.alive_entry, ha]

theorem forget_view_delIfValue [DecidableEq V] (t : Rows K V T) (now : T) (key : K) (value : V) :
    (view (delIfValue t now key value)).forget now =
      if ((view t).forget now key).map (·.val) = some value then
        update ((view t).forget now) key none
      else (view t).forget now := by
  funext k
  rw [forget_view, delIfValue, Table.get_delete]
  by_cases hk : k = key
  · subst hk
    rcases hg : t.get k with - | r
    · simp [forget_view, hg]
    · have hkey := key_eq_of_get hg
      by_cases ha : r.alive now = true
      · by_cases hv : r.value = value
        · simp [forget_view, hg, hkey, ha, hv, filter_some, Row.entry]
        · simp [forget_view, hg, hkey, ha, hv, filter_some, Row.entry]
      · simp [forget_view, hg, ha, filter_some]
  · have hsame : ((if ((view t).forget now key).map (·.val) = some value then
        update ((view t).forget now) key none else (view t).forget now) : Map _ _ _) k =
        (view t).forget now k := by
      split_ifs
      · exact update_of_ne hk ..
      · rfl
    rw [hsame, forget_view]
    rcases hg : t.get k with - | r
    · rfl
    · have hkey : r.key ≠ key := (key_eq_of_get hg).trans_ne hk
      simp [hkey, filter_some]

end

section

variable [LinearOrder T] [AddCommGroup T]

/-- `ttlSeconds` -/
def ttlSeconds (ttl : T) : T := max ttl 0

/-- The row that `Set` and `SetNX` insert. -/
def newRow (now : T) (key : K) (value : V) (ttl : T) : Row K V T where
  key := key
  value := value
  expiresAt := if ttlSeconds ttl > 0 then some (now + ttlSeconds ttl) else none
  updatedAt := now

/-- `Set` -/
def set (t : Rows K V T) (now : T) (key : K) (value : V) (ttl : T) : Rows K V T :=
  (upsert t (newRow now key value ttl) fun _ ↦ true).2

/-- `SetNX`: `RETURNING key` has a row if one was touched. -/
def setNX (t : Rows K V T) (now : T) (key : K) (value : V) (ttl : T) : Bool × Rows K V T :=
  upsert t (newRow now key value ttl) (·.expired now)

/-- The operations by name. -/
def apply [DecidableEq V] (t : Rows K V T) (now : T) : Op K V T → Result V × Rows K V T
  | .get key => (.value (get t now key), t)
  | .set key value ttl => (.done, set t now key value ttl)
  | .setNX key value ttl => let (ok, t) := setNX t now key value ttl; (.fresh ok, t)
  | .delIfValue key expected => (.done, delIfValue t now key expected)

def maintain (t : Rows K V T) (now : T) : Upkeep K → Rows K V T
  | .sweep => t
  | .cleanup limitRows locked => (cleanup t now limitRows locked).2

omit [DecidableEq K] in
theorem newRow_entry (now : T) (key : K) (value : V) (ttl : T) :
    (newRow now key value ttl).entry = ⟨value, deadline now ttl⟩ := by
  rcases le_or_gt ttl 0 with h | h
  · simp [newRow, Row.entry, deadline, ttlSeconds, h]
  · simp [newRow, Row.entry, deadline, ttlSeconds, h, h.le, not_le.2 h]

theorem apply_eq [DecidableEq V] (t : Rows K V T) (now : T) (op : Op K V T) :
    (apply t now op).1 = (((view t).forget now).apply now op).1 ∧
      (view (apply t now op).2).forget now =
        (((view t).forget now).apply now op).2.forget now := by
  have hidem := (view t).forget_forget (le_refl now)
  cases op with
  | get key =>
    refine ⟨?_, hidem.symm⟩
    simp only [apply, get, Map.apply, forget_view, map_map]
    rfl
  | set key value ttl =>
    refine ⟨rfl, ?_⟩
    have htouched : (upsert t (newRow now key value ttl) fun _ ↦ true).1 = true := by
      rw [(upsert_spec t (newRow now key value ttl) fun _ ↦ true).1]
      cases t.get (newRow now key value ttl).key <;> rfl
    simp only [apply, set, Map.apply, view_upsert, htouched, if_true, newRow_entry, Map.forget_update,
      hidem]
    rfl
  | setNX key value ttl =>
    have htouched : (setNX t now key value ttl).1 = !((view t).forget now key).isSome := by
      rw [setNX, (upsert_spec t (newRow now key value ttl) _).1, forget_view]
      show (t.get key).all _ = _
      rcases h : t.get key with - | r
      · rfl
      · rcases ha : r.alive now with - | -
        · simp [Row.expired_eq, ha, filter_some]
        · simp [Row.expired_eq, ha, filter_some]
    have hview : view (setNX t now key value ttl).2 = _ := view_upsert ..
    rw [show (upsert t (newRow now key value ttl) (·.expired now)).1 = _ from htouched] at hview
    simp only [apply, Map.apply]
    rcases hsome : ((view t).forget now key).isSome with - | -
    · rw [hsome] at htouched hview
      refine ⟨by rw [htouched]; rfl, ?_⟩
      simp only [hview, Bool.not_false, if_true, newRow_entry, Bool.false_eq_true, if_false,
        Map.forget_update, hidem]
      rfl
    · rw [hsome] at htouched hview
      refine ⟨by rw [htouched]; rfl, ?_⟩
      simp only [hview, Bool.not_true, Bool.false_eq_true, if_false, if_true, hidem]
  | delIfValue key expected =>
    refine ⟨rfl, ?_⟩
    simp only [apply, Map.apply, forget_view_delIfValue]
    split_ifs
    · rw [Map.forget_update, hidem]
      rfl
    · exact hidem.symm

end

end Pg

end Nexo.Cache
