import Nexo.Lib.Table
import Mathlib.Logic.Function.Basic
import Mathlib.Order.Basic

/-!
# Sorted sets that expire

A model of the part of Redis that serves sorted sets: a map from keys to sets of scored members,
each with an optional time to live. A key that has expired is not there any more, a set that becomes
empty takes its key and its time to live with it, and `ZADD` and `EXPIRE` act on what is there at
the moment of the command. Scores are integers and times are milliseconds.

What can be observed of a key is its members with their scores (`Db.score`). Each command has one
lemma about what it does to them, and what it does to the key.
-/

namespace Redis

open Relational Function List Option

/-- A member with its score. -/
structure Scored where
  member : String
  score : Int

/-- No member is twice in a set. -/
def Scored.keys (r : Scored) : List String := [r.member]

theorem Scored.keys_rescore (x : Int) (r : Scored) : { r with score := x }.keys = r.keys := rfl

abbrev ZSet := Table Scored String Scored.keys

namespace ZSet

variable {set : ZSet}

/-- The score of a member. -/
def score (set : ZSet) (member : String) : Option Int := (set.get member).map Scored.score

/-- A member is added, or gets a new score. -/
def add (set : ZSet) (member : String) (score : Int) : ZSet :=
  if (set.get member).isSome then
    set.update (fun r ↦ r.member = member) (fun r ↦ { r with score }) (Scored.keys_rescore score)
  else set.insert { member, score }

theorem member_of_get {m : String} {r : Scored} (h : set.get m = some r) : r.member = m := by
  have hmem := Table.mem_keys_of_get h
  exact (mem_singleton.1 hmem).symm

theorem score_eq_some_iff {m : String} {x : Int} :
    score set m = some x ↔ ⟨m, x⟩ ∈ set.rows := by
  constructor
  · intro h
    obtain ⟨⟨m', x'⟩, hget, rfl⟩ := map_eq_some_iff.1 h
    obtain rfl : m' = m := member_of_get hget
    exact Table.mem_of_get hget
  · intro h
    have hget : set.get m = some ⟨m, x⟩ := Table.get_eq_some_iff.2 ⟨h, mem_singleton.2 rfl⟩
    rw [score, hget]
    rfl

theorem get_insert (r : Scored) (m : String) :
    (set.insert r).get m = if m = r.member then some ((set.get r.member).getD r) else set.get m :=
  Table.get_insert_single (r := r) rfl m

theorem score_add (m : String) (x : Int) (m' : String) :
    score (set.add m x) m' = if m' = m then some x else score set m' := by
  unfold add
  by_cases hm : (set.get m).isSome
  · rw [if_pos hm, score, Table.get_update]
    split
    · next h =>
      obtain ⟨r, hr⟩ := isSome_iff_exists.1 hm
      rw [h, hr]
      simp [member_of_get hr]
    · next h =>
      rcases hget : set.get m' with - | r
      · simp [score, hget]
      · simp [score, hget, member_of_get hget, h]
  · have hnone : set.get m = none := by simpa using hm
    rw [if_neg hm, score, get_insert, hnone]
    split <;> rfl

theorem score_delete {p : Scored → Bool} {f : String → Int → Bool}
    (hp : ∀ r : Scored, p r = f r.member r.score) (m : String) :
    score (set.delete p) m = (score set m).filter fun x ↦ !f m x := by
  rw [score, Table.get_delete, score]
  rcases hget : set.get m with - | r
  · rfl
  · simp only [filter_some, map_some, hp, member_of_get hget]
    split <;> rfl

end ZSet

/-- A set and when it expires. -/
structure ZKey where
  set : ZSet
  expireAt : Option Int

/-- Has the time to live passed? -/
def ZKey.expired (z : ZKey) (now : Int) : Bool :=
  match z.expireAt with
  | some t => t < now
  | none => false

abbrev Db := String → Option ZKey

namespace Db

/-- What is there of a key at a moment. -/
def find (db : Db) (now : Int) (key : String) : Option ZKey :=
  (db key).filter fun z ↦ !z.expired now

/-- Store a set under a key; an empty one is not stored. -/
def put (db : Db) (key : String) (z : ZKey) : Db :=
  Function.update db key (if z.set.rows.isEmpty then none else some z)

/-- `ZADD`, and how many members it created -/
def zadd (db : Db) (now : Int) (key : String) (score : Int) (member : String) : ℕ × Db :=
  let z := (db.find now key).getD ⟨.empty, none⟩
  (if (z.set.get member).isSome then 0 else 1,
    Function.update db key (some { z with set := z.set.add member score }))

/-- `ZREM` -/
def zrem (db : Db) (now : Int) (key member : String) : Db :=
  match db.find now key with
  | none => db
  | some z => db.put key { z with set := z.set.delete fun r ↦ r.member = member }

/-- `ZREMRANGEBYSCORE key -inf (cutoff` -/
def zremBelow (db : Db) (now : Int) (key : String) (cutoff : Int) : Db :=
  match db.find now key with
  | none => db
  | some z => db.put key { z with set := z.set.delete fun r ↦ r.score < cutoff }

/-- `ZRANGEBYSCORE key min +inf`: by score, and members of one score in their own order -/
def zrangeFrom (db : Db) (now : Int) (key : String) (min : Int) : List String :=
  match db.find now key with
  | none => []
  | some z =>
    let rows := z.set.rows.filter fun r ↦ min ≤ r.score
    (rows.mergeSort fun r r' ↦ r.score < r'.score ∨ (r.score = r'.score ∧ r.member ≤ r'.member)).map
      Scored.member

/-- `EXPIRE`, in seconds -/
def expire (db : Db) (now : Int) (key : String) (seconds : Int) : Db :=
  match db.find now key with
  | none => db
  | some z =>
    if seconds ≤ 0 then Function.update db key none
    else Function.update db key (some { z with expireAt := some (now + 1000 * seconds) })

/-- The set under a key at a moment. -/
def setAt (db : Db) (now : Int) (key : String) : ZSet :=
  ((db.find now key).map ZKey.set).getD .empty

/-- **What can be seen of a key**: the scores of its members. -/
def score (db : Db) (now : Int) (key member : String) : Option Int :=
  (db.setAt now key).score member

/-! ### What the commands do -/

section Commands

variable {db : Db} {now t : Int} {key key' m m' : String} {z : ZKey}

theorem find_eq_some_iff :
    db.find now key = some z ↔ db key = some z ∧ ∀ e, z.expireAt = some e → now ≤ e := by
  rw [find, filter_eq_some_iff]
  refine and_congr_right fun _ ↦ ?_
  rcases h : z.expireAt with - | e <;> simp [ZKey.expired, h]

theorem score_of_find (h : db.find now key = some z) : db.score now key m = z.set.score m := by
  rw [score, setAt, h]
  rfl

theorem score_of_find_none (h : db.find now key = none) : db.score now key m = none := by
  rw [score, setAt, h]
  rfl

theorem score_put (hlive : ∀ e, z.expireAt = some e → t ≤ e) :
    (db.put key z).score t key m = z.set.score m := by
  by_cases hempty : z.set.rows.isEmpty
  · have hnone : (db.put key z).find t key = none := by simp [find, put, hempty]
    have hrows : z.set.rows = [] := by simpa using hempty
    rw [score_of_find_none hnone, ZSet.score, Table.get, hrows]
    rfl
  · refine score_of_find (find_eq_some_iff.2 ⟨?_, hlive⟩)
    simp [put, hempty]

theorem put_apply_of_ne (h : key' ≠ key) : db.put key z key' = db key' := by
  rw [put, update_of_ne h]

/-- A set with a member is stored. -/
theorem put_apply {x : Int} (hm : z.set.score m = some x) : db.put key z key = some z := by
  have hmem : ⟨m, x⟩ ∈ z.set.rows := ZSet.score_eq_some_iff.1 hm
  have hne : z.set.rows.isEmpty = false := by
    simpa using ne_nil_of_mem hmem
  simp [put, hne]

theorem fst_zadd (x : Int) :
    (db.zadd now key x m).1 = if (db.score now key m).isSome then 0 else 1 := by
  rcases h : db.find now key with - | z <;> simp [zadd, score, setAt, ZSet.score, h]

/-- **`ZADD` and `EXPIRE`** leave the set with the member, and a time to live from now on. -/
theorem expire_zadd (x : Int) {seconds : Int} (hpos : 0 < seconds) :
    (db.zadd now key x m).2.expire now key seconds =
      update db key
        (some ⟨(db.setAt now key).add m x, some (now + 1000 * seconds)⟩) := by
  have hz : ∃ e, (db.find now key).getD ⟨.empty, none⟩ = ⟨db.setAt now key, e⟩ ∧
      ∀ e', e = some e' → now ≤ e' := by
    rcases h : db.find now key with - | z
    · exact ⟨none, by simp [setAt, h], nofun⟩
    · exact ⟨z.expireAt, by simp [setAt, h], (find_eq_some_iff.1 h).2⟩
  obtain ⟨e, hz, hlive⟩ := hz
  have hfind : (db.zadd now key x m).2.find now key = some ⟨(db.setAt now key).add m x, e⟩ := by
    refine find_eq_some_iff.2 ⟨?_, hlive⟩
    simp [zadd, hz]
  rw [expire, hfind]
  simp only [if_neg (Int.not_le.2 hpos)]
  rw [zadd, update_idem]

theorem zremBelow_apply_of_ne (h : key' ≠ key) (cutoff : Int) :
    db.zremBelow now key cutoff key' = db key' := by
  rcases hfind : db.find now key with - | z
  · simp only [zremBelow, hfind]
  · simp only [zremBelow, hfind]
    exact put_apply_of_ne h

theorem zrem_apply_of_ne (h : key' ≠ key) : db.zrem now key m key' = db key' := by
  rcases hfind : db.find now key with - | z
  · simp only [zrem, hfind]
  · simp only [zrem, hfind]
    exact put_apply_of_ne h

theorem score_zremBelow (cutoff : Int) :
    (db.zremBelow now key cutoff).score now key m =
      (db.score now key m).filter fun x ↦ cutoff ≤ x := by
  rcases h : db.find now key with - | z
  · simp only [zremBelow, h]
    rw [score_of_find_none h]
    rfl
  · simp only [zremBelow, h]
    refine (score_put ?_).trans ?_
    · exact (find_eq_some_iff.1 h).2
    · rw [score_of_find h, ZSet.score_delete (f := fun _ x ↦ x < cutoff) fun _ ↦ rfl]
      simp [← decide_not]

/-- The second database has the same times to live, and no members or scores that are new. -/
def Shrinks (db db' : Db) : Prop :=
  ∀ k z', db' k = some z' → ∃ z, db k = some z ∧ z'.expireAt = z.expireAt ∧
    ∀ m x, z'.set.score m = some x → z.set.score m = some x

theorem shrinks_put {p : Scored → Bool} {f : String → Int → Bool}
    (hp : ∀ r : Scored, p r = f r.member r.score) (h : db key = some z) :
    Shrinks db (db.put key { z with set := z.set.delete p }) := by
  intro k z' hz'
  by_cases hk : k = key
  · subst hk
    have heq : z' = { z with set := z.set.delete p } := by
      rw [put, update_self] at hz'
      split at hz'
      · cases hz'
      · exact (some.inj hz').symm
    subst heq
    refine ⟨z, h, rfl, fun m x hx ↦ ?_⟩
    rw [ZSet.score_delete hp] at hx
    exact (filter_eq_some_iff.1 hx).1
  · rw [put_apply_of_ne hk] at hz'
    exact ⟨z', hz', rfl, fun _ _ hx ↦ hx⟩

theorem Shrinks.refl (db : Db) : Shrinks db db := fun _ z hz ↦ ⟨z, hz, rfl, fun _ _ hx ↦ hx⟩

theorem shrinks_zremBelow (cutoff : Int) : Shrinks db (db.zremBelow now key cutoff) := by
  unfold zremBelow
  split
  · exact .refl db
  · next h => exact shrinks_put (f := fun _ x ↦ x < cutoff) (fun _ ↦ rfl) (find_eq_some_iff.1 h).1

theorem shrinks_zrem : Shrinks db (db.zrem now key m) := by
  unfold zrem
  split
  · exact .refl db
  · next h => exact shrinks_put (f := fun m' _ ↦ m' = m) (fun _ ↦ rfl) (find_eq_some_iff.1 h).1

end Commands

end Db

end Redis
