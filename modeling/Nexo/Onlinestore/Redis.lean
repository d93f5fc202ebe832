import Nexo.Lib.Redis
import Nexo.Lib.Strconv
import Mathlib.Data.List.Induction
import Mathlib.Data.String.Basic

/-!
# The online store on Redis

`onlinestore/redis`: one sorted set per user, with a member `platform:node:conn_id` for every
connection, scored with the second its registration expires. Reads filter by score; only `Renew`
trims. The node and the server read one clock, in milliseconds, and each operation runs at one
reading of it.

Two invariants carry the results over runs. `Held` bounds every score by what the key lives for, so
that a key outlives its live members; it is kept by every operation. `Safe` says of one member that
it is live up to some moment, and is kept by every operation that does not remove it.
-/

namespace Nexo.Onlinestore

open Redis List Function Strconv

/-! ### The code -/

/-- `ConnRef`; the platform is a Go `int`, and connection ids have no colon. -/
@[ext] structure ConnRef where
  userId : String
  platformId : Int
  connId : String
  fits : Strconv.Fits platformId
  plain : ':' ∉ connId.toList
  deriving DecidableEq

/-- `Store`, without its client and its clock -/
structure Store where
  ttl : Int

/-- `Time.Unix` -/
def unix (now : Int) : Int := now / 1000

def key (userId : String) : String := "nexo:online:" ++ userId

def member (nodeId : String) (c : ConnRef) : String :=
  Strconv.formatInt c.platformId ++ ":" ++ nodeId ++ ":" ++ c.connId

/-- What the client sends for a duration: whole seconds, and one for a part of one. -/
def formatSec (dur : Int) : Int := if 0 < dur ∧ dur < 1000 then 1 else dur.tdiv 1000

namespace Store

variable (s : Store)

/-- `Store.Add` -/
def add (db : Db) (now : Int) (nodeId : String) (c : ConnRef) : Db :=
  let score := unix (now + s.ttl)
  let (_, db) := db.zadd now (key c.userId) score (member nodeId c)
  db.expire now (key c.userId) (formatSec (2 * s.ttl))

/-- `Store.Remove` -/
def remove (db : Db) (now : Int) (nodeId : String) (c : ConnRef) : Db :=
  db.zrem now (key c.userId) (member nodeId c)

/-- The commands of `Store.Renew`, with the replies to its `ZADD`s. -/
def renewPipe (now : Int) (nodeId : String) : Db → List ConnRef → List ℕ × Db
  | db, [] => ([], db)
  | db, c :: conns =>
    let db := db.zremBelow now (key c.userId) (unix now)
    let (created, db) := db.zadd now (key c.userId) (unix (now + s.ttl)) (member nodeId c)
    let db := db.expire now (key c.userId) (formatSec (2 * s.ttl))
    let (adds, db) := renewPipe now nodeId db conns
    (created :: adds, db)

/-- `Store.Renew` -/
def renew (db : Db) (now : Int) (nodeId : String) (conns : List ConnRef) : List ConnRef × Db :=
  if conns.isEmpty then ([], db)
  else
    let (adds, db) := s.renewPipe now nodeId db conns
    (((conns.zip adds).filter fun x ↦ x.2 > 0).map Prod.fst, db)

end Store

/-- The part of a member before its first colon, as `strings.Cut` has it. -/
def cutPlatform (m : String) : String := String.ofList (m.toList.takeWhile (· ≠ ':'))

/-- One member of a reply in `Store.Online`. -/
def addPlatform (out : List Int) (m : String) : List Int :=
  match Strconv.parseInt (cutPlatform m) with
  | some platform => if platform ∈ out then out else out ++ [platform]
  | none => out

/-- `Store.Online`; users who are absent from the result have no platforms. -/
def online (db : Db) (now : Int) (userIds : List String) : String → List Int :=
  userIds.foldl (fun out id ↦ Function.update out id
    ((db.zrangeFrom now (key id) (unix now)).foldl addPlatform (out id))) fun _ ↦ []

/-! ### Runs -/

/-- The operations that write. -/
inductive Op where
  | add (nodeId : String) (c : ConnRef)
  | remove (nodeId : String) (c : ConnRef)
  | renew (nodeId : String) (conns : List ConnRef)

def Store.apply (s : Store) (db : Db) (now : Int) : Op → Db
  | .add nodeId c => s.add db now nodeId c
  | .remove nodeId c => remove db now nodeId c
  | .renew nodeId conns => (s.renew db now nodeId conns).2

/-- The database after operations at the given moments. -/
def Store.after (s : Store) (db : Db) (ops : List (Int × Op)) : Db :=
  ops.foldl (fun db op ↦ s.apply db op.1 op.2) db

/-- The operations come one after the other between two moments. -/
def InOrder : Int → List (Int × Op) → Int → Prop
  | start, [], stop => start ≤ stop
  | start, (now, _) :: ops, stop => start ≤ now ∧ InOrder now ops stop

/-- The score of a member that is live: its registration has not expired. -/
def liveScore (db : Db) (now : Int) (k m : String) : Option Int :=
  (db.score now k m).filter fun x ↦ unix now ≤ x

/-- Is the connection online? -/
def live (db : Db) (now : Int) (nodeId : String) (c : ConnRef) : Bool :=
  (liveScore db now (key c.userId) (member nodeId c)).isSome

/-! ### Names -/

theorem colon_notMem_formatInt (n : Int) : ':' ∉ (formatInt n).toList := fun h ↦
  absurd (toNat_lt_of_mem_formatInt h) (by decide)

section Renew

variable {s : Store} {n : Int} {db : Db} {now t : Int} {nodeId : String} {c : ConnRef}
  {conns : List ConnRef} {k m : String}

/-- A time to live of whole seconds reaches the server as it is. -/
theorem formatSec_ttl (hs : s.ttl = 1000 * n) : formatSec (2 * s.ttl) = 2 * n := by
  have hbig : ¬ (0 < 2 * s.ttl ∧ 2 * s.ttl < 1000) := by omega
  rw [formatSec, if_neg hbig, hs, show 2 * (1000 * n) = 2 * n * 1000 by ring]
  exact Int.mul_tdiv_cancel _ (by decide)

theorem unix_add (hs : s.ttl = 1000 * n) : unix (now + s.ttl) = unix now + n := by
  rw [unix, unix, hs]
  omega

/-- The database after a registration: `ZADD` and `EXPIRE`. -/
def registered (s : Store) (n : Int) (db : Db) (now : Int) (nodeId : String) (c : ConnRef) : Db :=
  Function.update db (key c.userId)
    (some ⟨(db.setAt now (key c.userId)).add (member nodeId c) (unix (now + s.ttl)),
      some (now + 1000 * (2 * n))⟩)

theorem expire_zadd (hn : 1 ≤ n) :
    (db.zadd now (key c.userId) (unix (now + s.ttl)) (member nodeId c)).2.expire now (key c.userId)
      (2 * n) = registered s n db now nodeId c :=
  Db.expire_zadd _ (by omega)

theorem add_eq (hn : 1 ≤ n) (hs : s.ttl = 1000 * n) :
    s.add db now nodeId c = registered s n db now nodeId c := by
  rw [Store.add, formatSec_ttl hs]
  exact expire_zadd hn

/-- The database after one round of `Renew`. -/
def renewed (s : Store) (n : Int) (db : Db) (now : Int) (nodeId : String) (c : ConnRef) : Db :=
  registered s n (db.zremBelow now (key c.userId) (unix now)) now nodeId c

section

variable (hn : 1 ≤ n)
include hn

/-- One round of `Renew`: it creates the member unless it is live. -/
theorem renewPipe_cons (hs : s.ttl = 1000 * n) :
    s.renewPipe now nodeId db (c :: conns) =
      ((if live db now nodeId c then 0 else 1) ::
        (s.renewPipe now nodeId (renewed s n db now nodeId c) conns).1,
      (s.renewPipe now nodeId (renewed s n db now nodeId c) conns).2) := by
  rw [Store.renewPipe]
  simp only [formatSec_ttl hs, expire_zadd hn, Db.fst_zadd, Db.score_zremBelow]
  rfl

end

theorem snd_renew : (s.renew db now nodeId conns).2 = (s.renewPipe now nodeId db conns).2 := by
  unfold Store.renew
  cases conns with
  | nil | cons => rfl

end Renew

/-- **What every command of an operation keeps, the operation keeps.** -/
theorem apply_keeps {s : Store} {n now : Int} {P : Db → Prop} (hn : 1 ≤ n) (hs : s.ttl = 1000 * n)
    (hadd : ∀ db nodeId c, P db → P (registered s n db now nodeId c))
    (htrim : ∀ db k, P db → P (db.zremBelow now k (unix now))) (op : Op)
    (hrem : ∀ nodeId c, op = .remove nodeId c →
      ∀ db, P db → P (db.zrem now (key c.userId) (member nodeId c)))
    {db : Db} (h : P db) : P (s.apply db now op) := by
  cases op with
  | add nodeId c =>
    rw [Store.apply, add_eq hn hs]
    exact hadd db nodeId c h
  | remove nodeId c => exact hrem nodeId c rfl db h
  | renew nodeId conns =>
    rw [Store.apply, snd_renew]
    clear hrem
    induction conns generalizing db with
    | nil => exact h
    | cons c conns ih =>
      rw [renewPipe_cons hn hs]
      exact ih (hadd _ nodeId c (htrim db _ h))

/-! ### Staying live -/

/-- The member is in the set with a score that makes it live up to `t`, and so is the key. -/
structure Safe (db : Db) (k m : String) (t : Int) : Prop where
  found : ∃ z x, db k = some z ∧ z.set.score m = some x ∧ unix t ≤ x ∧
    ∀ e, z.expireAt = some e → t ≤ e

section Safe

variable {s : Store} {n : Int} {db : Db} {now t : Int} {nodeId k m : String} {c : ConnRef}

theorem unix_mono (h : now ≤ t) : unix now ≤ unix t := by
  rw [unix, unix]
  omega

section

variable (h : Safe db k m t)
include h

theorem Safe.liveScore (hnow : now ≤ t) : (liveScore db now k m).isSome := by
  obtain ⟨z, x, hz, hx, hlive, hexpire⟩ := h.found
  have hfind : db.find now k = some z :=
    Db.find_eq_some_iff.2 ⟨hz, fun e he ↦ hnow.trans (hexpire e he)⟩
  have hle : unix now ≤ x := (unix_mono hnow).trans hlive
  rw [Onlinestore.liveScore, Db.score_of_find hfind, hx]
  simp [hle]

theorem Safe.of_eq {db' : Db} (heq : db' k = db k) : Safe db' k m t := by
  obtain ⟨z, x, hz, hrest⟩ := h.found
  exact ⟨z, x, heq.trans hz, hrest⟩

/-- A deletion that spares the member. -/
theorem Safe.put {z : ZKey} {p : Scored → Bool} {f : String → Int → Bool}
    (hp : ∀ r : Scored, p r = f r.member r.score) (hz : db k = some z)
    (hspare : ∀ x, unix t ≤ x → f m x = false) :
    Safe (db.put k { z with set := z.set.delete p }) k m t := by
  obtain ⟨z', x, hz', hx, hlive, hexpire⟩ := h.found
  obtain rfl := Option.some.inj (hz.symm.trans hz')
  have hkeep : ZSet.score (z.set.delete p) m = some x := by
    rw [ZSet.score_delete hp, hx, Option.filter_some, hspare x hlive]
    rfl
  exact ⟨_, x, Db.put_apply hkeep, hkeep, hlive, hexpire⟩

theorem Safe.zremBelow (hnow : now ≤ t) (k' : String) :
    Safe (db.zremBelow now k' (unix now)) k m t := by
  by_cases hk : k = k'
  · subst hk
    unfold Db.zremBelow
    split
    · exact h
    · next z hfind =>
      refine h.put (f := fun _ x ↦ x < unix now) (fun _ ↦ rfl) (Db.find_eq_some_iff.1 hfind).1 ?_
      intro x hx
      have := unix_mono hnow
      exact decide_eq_false (by omega)
  · exact h.of_eq (Db.zremBelow_apply_of_ne hk _)

theorem Safe.zrem {k' m' : String} (hne : ¬ (k = k' ∧ m = m')) :
    Safe (db.zrem now k' m') k m t := by
  by_cases hk : k = k'
  · subst hk
    unfold Db.zrem
    split
    · exact h
    · next z hfind =>
      exact h.put (f := fun m _ ↦ m = m') (fun _ ↦ rfl) (Db.find_eq_some_iff.1 hfind).1
        fun _ _ ↦ decide_eq_false fun hm ↦ hne ⟨rfl, hm⟩
  · exact h.of_eq (Db.zrem_apply_of_ne hk)

end

/-- A registration, of this member or of another one. -/
theorem Safe.registered (hs : s.ttl = 1000 * n) (h : Safe db k m t) (hnow : now ≤ t)
    (httl : t ≤ now + s.ttl) : Safe (registered s n db now nodeId c) k m t := by
  by_cases hk : k = key c.userId
  · subst hk
    obtain ⟨z, x, hz, hx, hlive, hexpire⟩ := h.found
    have hfind : db.find now (key c.userId) = some z :=
      Db.find_eq_some_iff.2 ⟨hz, fun e he ↦ hnow.trans (hexpire e he)⟩
    have hset : db.setAt now (key c.userId) = z.set := by rw [Db.setAt, hfind]; rfl
    refine ⟨_, if m = member nodeId c then unix (now + s.ttl) else x, update_self .., ?_, ?_,
      ?_⟩
    · rw [hset, ZSet.score_add, hx]
      split <;> rfl
    · split
      · exact unix_mono httl
      · exact hlive
    · rintro e ⟨⟩
      omega
  · exact h.of_eq (update_of_ne hk ..)

/-- An operation keeps what it does not remove. -/
theorem Safe.apply (hn : 1 ≤ n) (hs : s.ttl = 1000 * n) (h : Safe db k m t) (hnow : now ≤ t)
    (httl : t ≤ now + s.ttl) (op : Op)
    (hop : ∀ nodeId c, op = .remove nodeId c → ¬ (k = key c.userId ∧ m = member nodeId c)) :
    Safe (s.apply db now op) k m t :=
  apply_keeps (P := fun db ↦ Safe db k m t) hn hs (fun _ _ _ h ↦ h.registered hs hnow httl)
    (fun _ k' h ↦ h.zremBelow hnow k') op (fun nodeId c heq _ h ↦ h.zrem (hop nodeId c heq)) h

theorem stop_of_inOrder {start stop : Int} {ops : List (Int × Op)} (h : InOrder start ops stop) :
    start ≤ stop := by
  induction ops generalizing start with
  | nil => exact h
  | cons op ops ih => exact h.1.trans (ih h.2)

/-- **A member stays live for its time to live**, whatever happens that does not remove it. -/
theorem Safe.after (hn : 1 ≤ n) (hs : s.ttl = 1000 * n) {start stop : Int} {ops : List (Int × Op)}
    (h : Safe db k m t) (hops : InOrder start ops stop) (hstop : stop ≤ t)
    (httl : t ≤ start + s.ttl)
    (hkeep : ∀ op ∈ ops, ∀ nodeId c, op.2 = .remove nodeId c →
      ¬ (k = key c.userId ∧ m = member nodeId c)) :
    Safe (s.after db ops) k m t := by
  induction ops generalizing db start with
  | nil => exact h
  | cons op ops ih =>
    obtain ⟨now, op⟩ := op
    obtain ⟨hstart, hrest⟩ := hops
    have hnow : now ≤ t := (stop_of_inOrder hrest).trans hstop
    have hlater : t ≤ now + s.ttl := httl.trans (Int.add_le_add_right hstart _)
    have hstep := h.apply hn hs hnow hlater op (hkeep _ mem_cons_self)
    exact ih hstep hrest hlater fun op' hop' ↦ hkeep op' (.tail _ hop')

end Safe

/-! ### Keys outlive their members -/

/-- Every member is one of a connection, its score is one that a registration until now would have
given, and it has expired when the key does. -/
def Held (s : Store) (now : Int) (db : Db) : Prop :=
  ∀ k z, db k = some z → ∀ m x, z.set.score m = some x →
    x ≤ unix (now + s.ttl) ∧ (∀ e, z.expireAt = some e → x < unix e) ∧
    ∃ nodeId c, k = key c.userId ∧ m = member nodeId c

section Held

variable {s : Store} {n : Int} {db : Db} {now t : Int}

theorem Held.later (h : Held s now db) (ht : now ≤ t) : Held s t db := by
  intro k z hz m x hx
  obtain ⟨hle, hrest⟩ := h k z hz m x hx
  exact ⟨hle.trans (unix_mono (Int.add_le_add_right ht _)), hrest⟩

theorem Held.shrinks {db' : Db} (h : Held s now db) (hshrinks : Db.Shrinks db db') :
    Held s now db' := by
  intro k z' hz' m x hx
  obtain ⟨z, hz, hexpire, hset⟩ := hshrinks k z' hz'
  rw [hexpire]
  exact h k z hz m x (hset m x hx)

theorem Held.registered (hn : 1 ≤ n) (hs : s.ttl = 1000 * n) (h : Held s now db) (nodeId : String)
    (c : ConnRef) : Held s now (registered s n db now nodeId c) := by
  intro k z hz m x hx
  by_cases hk : k = key c.userId
  · subst hk
    rw [Onlinestore.registered, update_self] at hz
    cases hz
    have hfits : ∀ {x}, x ≤ unix (now + s.ttl) → ∀ e, some (now + 1000 * (2 * n)) = some e →
        x < unix e := by
      rintro x hx e ⟨⟩
      rw [unix_add hs, unix] at hx
      rw [unix]
      omega
    rw [ZSet.score_add] at hx
    split at hx
    · next hm =>
      cases hx
      exact ⟨le_rfl, hfits le_rfl, nodeId, c, rfl, hm⟩
    · rw [← Db.score] at hx
      rcases hfind : db.find now (key c.userId) with - | z
      · rw [Db.score_of_find_none hfind] at hx
        cases hx
      · rw [Db.score_of_find hfind] at hx
        obtain ⟨hle, -, hconn⟩ := h _ z (Db.find_eq_some_iff.1 hfind).1 m x hx
        exact ⟨hle, hfits hle, hconn⟩
  · rw [Onlinestore.registered, update_of_ne hk] at hz
    exact h k z hz m x hx

/-- **The invariant holds over every run.** -/
theorem Held.after (hn : 1 ≤ n) (hs : s.ttl = 1000 * n) {start stop : Int} {ops : List (Int × Op)}
    (h : Held s start db) (hops : InOrder start ops stop) : Held s stop (s.after db ops) := by
  induction ops generalizing db start with
  | nil => exact h.later hops
  | cons op ops ih =>
    obtain ⟨now, op⟩ := op
    obtain ⟨hstart, hrest⟩ := hops
    refine ih ?_ hrest
    exact apply_keeps (P := Held s now) hn hs (fun _ nodeId c h ↦ h.registered hn hs nodeId c)
      (fun _ _ h ↦ h.shrinks (Db.shrinks_zremBelow _)) op
      (fun _ _ _ _ h ↦ h.shrinks Db.shrinks_zrem) (h.later hstart)

/-- A key that expires has no live members left. -/
theorem Held.expired (h : Held s now db) {k m : String} {z : ZKey} {x : Int} (hz : db k = some z)
    (hx : z.set.score m = some x) (hexpired : z.expired t = true) : x < unix t := by
  rcases he : z.expireAt with - | e
  · rw [ZKey.expired, he] at hexpired
    cases hexpired
  · rw [ZKey.expired, he] at hexpired
    have hlt : e < t := of_decide_eq_true hexpired
    exact ((h k z hz m x hx).2.1 e he).trans_le (unix_mono hlt.le)

end Held

/-! ### Reading -/

section Online

variable {db : Db} {now : Int} {out : List Int}

end Online

end Nexo.Onlinestore
