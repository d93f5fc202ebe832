import Nexo.Errcode
import Mathlib.Data.List.AList

/-!
# The node-local connection registry

`gateway/usermap.go`: slots are reserved before the WebSocket upgrade and counted per node, user,
token and address; a client is adopted into a reserved slot, and unregistering it gives the slot
back. Every function here runs under the registry's lock. A client is its number; a Go map is an
`AList`, whose missing entries read as zero.
-/

namespace Nexo.Gateway

open Errcode List

/-- `config.LimitsConfig`, as far as the registry reads it. -/
structure Limits where
  wsConnsTotal : Int
  wsConnsPerUser : Int
  wsConnsPerToken : Int
  wsConnsPerIp : Int
  deriving DecidableEq

structure Slot where
  userId : String
  tokenId : String
  ip : String
  deriving DecidableEq

abbrev Counter := AList fun _ : String ↦ Int

structure UserMap where
  limits : Limits
  byUser : AList fun _ : String ↦ List ℕ
  byUserN : Counter
  byToken : Counter
  byIp : Counter
  total : Int
  closing : Bool

/-- `over` -/
def overLimit (n limit : Int) : Bool := limit > 0 && n ≥ limit

namespace Counter

/-- The entry of a key, zero when there is none. -/
def entry (m : Counter) (k : String) : Int := (m.lookup k).getD 0

/-- `m[k]++` -/
def bump (m : Counter) (k : String) : Counter := m.insert k (entry m k + 1)

/-- `incr` -/
def incr (m : Counter) (k : String) : Counter := if k = "" then m else bump m k

/-- `decr` -/
def decr (m : Counter) (k : String) : Counter :=
  if k = "" then m else if entry m k ≤ 1 then m.erase k else m.insert k (entry m k - 1)

end Counter

namespace UserMap

open Counter

/-- `NewUserMap` -/
def new (limits : Limits) : UserMap :=
  { limits, byUser := ∅, byUserN := ∅, byToken := ∅, byIp := ∅, total := 0, closing := false }

/-- `UserMap.reserve` -/
def reserve (m : UserMap) (s : Slot) : Except Err UserMap :=
  if m.closing then .error errNodeDraining
  else if overLimit m.total m.limits.wsConnsTotal then
    .error (errConnOverLimit.withMessage "node connection limit reached")
  else if overLimit (Counter.entry m.byUserN s.userId) m.limits.wsConnsPerUser then
    .error (errConnOverLimit.withMessage "too many connections for this user")
  else if s.tokenId ≠ "" ∧ overLimit (Counter.entry m.byToken s.tokenId) m.limits.wsConnsPerToken then
    .error (errConnOverLimit.withMessage "too many connections for this token")
  else if s.ip ≠ "" ∧ overLimit (Counter.entry m.byIp s.ip) m.limits.wsConnsPerIp then
    .error (errConnOverLimit.withMessage "too many connections from this address")
  else
    .ok { m with
      byUserN := bump m.byUserN s.userId
      byToken := incr m.byToken s.tokenId
      byIp := incr m.byIp s.ip
      total := m.total + 1 }

/-- `UserMap.release` -/
def release (m : UserMap) (s : Slot) : UserMap :=
  { m with
    byUserN := decr m.byUserN s.userId
    byToken := decr m.byToken s.tokenId
    byIp := decr m.byIp s.ip
    total := m.total - 1 }

/-- The clients of a user. -/
def get (m : UserMap) (userId : String) : List ℕ := (m.byUser.lookup userId).getD []

/-- `UserMap.adopt`; `closed` tells whether the client's `closed` channel is closed. On failure the
slot is released. -/
def adopt (m : UserMap) (c : ℕ) (s : Slot) (closed : Bool) : Option Err × UserMap :=
  if closed then (some errConnClosed, m.release s)
  else if m.closing then (some errNodeDraining, m.release s)
  else (none, { m with byUser := m.byUser.insert s.userId (m.get s.userId ++ [c]) })

/-- `UserMap.Close`: the clients to drain, in some order. -/
def close (m : UserMap) : List ℕ × UserMap :=
  ((m.byUser.entries.map (·.2)).flatten, { m with closing := true })

/-- `UserMap.All`, in some order -/
def all (m : UserMap) : List ℕ := (m.byUser.entries.map (·.2)).flatten

/-- `UserMap.Unregister` -/
def unregister (m : UserMap) (c : ℕ) (s : Slot) : UserMap :=
  if c ∈ m.get s.userId then
    let conns := (m.get s.userId).erase c
    UserMap.release
      { m with
        byUser := if conns = [] then m.byUser.erase s.userId else m.byUser.insert s.userId conns }
      s
  else m

/-- `UserMap.OnlineExcept`; `connId` is the id of a client. -/
def onlineExcept (m : UserMap) (connId : ℕ → String) (userIds : List String) (exceptConnId : String) :
    List String :=
  userIds.filter fun id ↦
    (m.get id).length > 1 ||
      match m.get id with
      | [c] => connId c ≠ exceptConnId
      | _ => false

end UserMap

/-! ### What the registry's functions do -/

namespace UserMap

variable {m m' : UserMap} {c : ℕ} {s : Slot} {closed : Bool}

theorem reserve_eq_ok (h : m.reserve s = .ok m') :
    m'.limits = m.limits ∧ m'.byUser = m.byUser ∧ m'.closing = m.closing := by
  unfold reserve at h
  repeat' split at h
  all_goals cases h
  exact ⟨rfl, rfl, rfl⟩

theorem adopt_eq_ok (h : m.adopt c s closed = (none, m')) :
    closed = false ∧ m.closing = false ∧
      m' = { m with byUser := m.byUser.insert s.userId (m.get s.userId ++ [c]) } := by
  unfold adopt at h
  split at h
  · cases h
  split at h
  · cases h
  next hclosed hclosing =>
    cases h
    exact ⟨by simpa using hclosed, by simpa using hclosing, rfl⟩

theorem adopt_eq_error {err : Err} (h : m.adopt c s closed = (some err, m')) :
    m' = m.release s := by
  unfold adopt at h
  split at h
  · cases h
    rfl
  split at h
  · cases h
    rfl
  · cases h

theorem get_insert (u : String) (conns : List ℕ) (u' : String) :
    ({ m with byUser := m.byUser.insert u conns } : UserMap).get u' =
      if u' = u then conns else m.get u' := by
  unfold get
  split
  next h => rw [h, AList.lookup_insert, Option.getD_some]
  next h => rw [AList.lookup_insert_ne h]

/-- `Unregister` removes the client from its user's list, and only there. -/
theorem get_unregister (h : c ∈ m.get s.userId) (u : String) :
    (m.unregister c s).get u = if u = s.userId then (m.get s.userId).erase c else m.get u := by
  have hlookup : (m.unregister c s).byUser =
      if (m.get s.userId).erase c = [] then m.byUser.erase s.userId
      else m.byUser.insert s.userId ((m.get s.userId).erase c) := by
    rw [unregister, if_pos h]
    rfl
  rw [get, hlookup]
  by_cases hu : u = s.userId
  · subst hu
    rw [if_pos rfl]
    split
    next hnil => rw [AList.lookup_erase, hnil, Option.getD_none]
    next => rw [AList.lookup_insert, Option.getD_some]
  · rw [if_neg hu]
    split
    · rw [AList.lookup_erase_ne hu]
      rfl
    · rw [AList.lookup_insert_ne hu]
      rfl

/-- A user with a client other than the exception is kept. -/
theorem mem_onlineExcept {connId : ℕ → String} {userIds : List String} {exceptConnId u : String}
    (hu : u ∈ userIds) (hc : c ∈ m.get u) (hid : connId c ≠ exceptConnId) :
    u ∈ m.onlineExcept connId userIds exceptConnId := by
  refine mem_filter.2 ⟨hu, ?_⟩
  rcases hget : m.get u with - | ⟨a, - | ⟨b, rest⟩⟩
  · rw [hget] at hc
    cases hc
  · rw [hget] at hc
    obtain rfl := mem_singleton.1 hc
    simpa using hid
  · simp

/-- The snapshot of `Close` is made of the registered clients. -/
theorem mem_close {i : ℕ} : i ∈ m.close.1 ↔ ∃ u, i ∈ m.get u := by
  simp only [close, mem_flatten, mem_map]
  constructor
  · rintro ⟨conns, ⟨⟨u, conns⟩, hmem, rfl⟩, hi⟩
    refine ⟨u, ?_⟩
    rw [get, (AList.mem_lookup_iff.2 hmem : m.byUser.lookup u = some conns), Option.getD_some]
    exact hi
  · rintro ⟨u, hi⟩
    rw [get] at hi
    rcases hu : m.byUser.lookup u with - | conns
    · rw [hu] at hi
      cases hi
    · rw [hu, Option.getD_some] at hi
      exact ⟨conns, ⟨⟨u, conns⟩, AList.mem_lookup_iff.1 hu, rfl⟩, hi⟩

/-- The entry of a user with clients. -/
theorem exists_entry {u : String} (h : c ∈ m.get u) :
    (⟨u, m.get u⟩ : (_ : String) × List ℕ) ∈ m.byUser.entries := by
  rcases hu : m.byUser.lookup u with - | conns
  · rw [get, hu] at h
    cases h
  · rw [get, hu]
    exact AList.mem_lookup_iff.1 hu

/-- Where no client is listed twice, a user's clients are distinct. -/
theorem nodup_get (h : m.close.1.Nodup) (u : String) : (m.get u).Nodup := by
  rcases hget : m.get u with - | ⟨i, rest⟩
  · exact nodup_nil
  · have hi : i ∈ m.get u := hget ▸ mem_cons_self
    exact hget ▸ (nodup_flatten.1 h).1 _ (mem_map_of_mem (exists_entry hi))

/-- Where no client is listed twice, it is of one user. -/
theorem eq_of_mem_get (h : m.close.1.Nodup) {u v : String} (hu : c ∈ m.get u) (hv : c ∈ m.get v) :
    u = v := by
  by_contra hne
  have hsymm : Std.Symm (Function.onFun List.Disjoint fun e : (_ : String) × List ℕ ↦ e.2) :=
    ⟨fun _ _ h _ ha hb ↦ h hb ha⟩
  have hdisjoint := (pairwise_map.1 (nodup_flatten.1 h).2).forall (exists_entry hu)
    (exists_entry hv) fun heq ↦ hne (Sigma.mk.inj heq).1
  exact hdisjoint hu hv

end UserMap

/-! ### Counters -/

/-- **A counter counts**: an entry for each key that occurs, and no other. -/
def Counts (m : Counter) (n : String → ℕ) : Prop :=
  ∀ k, m.lookup k = if n k = 0 then none else some (n k : Int)

namespace Counts

variable {m : Counter} {n n' : String → ℕ} {k : String}

theorem entry_eq (h : Counts m n) (k : String) : Counter.entry m k = n k := by
  rw [Counter.entry, h k]
  split
  next hz => simp [hz]
  next => rfl

theorem bump (h : Counts m n) (hn : ∀ k', n' k' = n k' + if k' = k then 1 else 0) :
    Counts (Counter.bump m k) n' := by
  intro k'
  rw [Counter.bump, h.entry_eq, hn k']
  by_cases hk : k' = k
  · subst hk
    rw [AList.lookup_insert, if_pos rfl, if_neg (by omega)]
    simp
  · rw [AList.lookup_insert_ne hk, if_neg hk, h k', Nat.add_zero]

/-- Both directions skip the empty key, so that a count without it fits. -/
theorem incr (h : Counts m n) (hn : ∀ k', n' k' = n k' + if k' = k ∧ k ≠ "" then 1 else 0) :
    Counts (Counter.incr m k) n' := by
  unfold Counter.incr
  split
  next hk =>
    obtain rfl : n' = n := funext fun k' ↦ by rw [hn k', if_neg (by simp [hk]), Nat.add_zero]
    exact h
  next hk => exact h.bump fun k' ↦ by simpa [hk] using hn k'

theorem decr (h : Counts m n) (hn : ∀ k', n k' = n' k' + if k' = k ∧ k ≠ "" then 1 else 0) :
    Counts (Counter.decr m k) n' := by
  unfold Counter.decr
  split
  next hk =>
    obtain rfl : n = n' := funext fun k' ↦ by rw [hn k', if_neg (by simp [hk]), Nat.add_zero]
    exact h
  next hk =>
    have hself : n k = n' k + 1 := by simpa [hk] using hn k
    have hother (k' : String) (hne : k' ≠ k) : n k' = n' k' := by simpa [hne] using hn k'
    rw [h.entry_eq]
    intro k'
    by_cases hk' : k' = k
    · subst hk'
      split
      · rw [AList.lookup_erase, if_pos (by omega)]
      · rw [AList.lookup_insert, if_neg (by omega), hself]
        simp
    · split
      · rw [AList.lookup_erase_ne hk', h k', hother k' hk']
      · rw [AList.lookup_insert_ne hk', h k', hother k' hk']

end Counts

/-- The keys under which a slot is counted. -/
def Slot.hasUser (k : String) (s : Slot) : Bool := s.userId = k
def Slot.hasToken (k : String) (s : Slot) : Bool := k ≠ "" && s.tokenId = k
def Slot.hasIp (k : String) (s : Slot) : Bool := k ≠ "" && s.ip = k

/-- **The registry counts slots**, `n p` of which satisfy `p`, and keeps to its limits. -/
structure Tallied (m : UserMap) (n : (Slot → Bool) → ℕ) : Prop where
  total : m.total = n fun _ ↦ true
  byUserN : Counts m.byUserN fun k ↦ n (Slot.hasUser k)
  byToken : Counts m.byToken fun k ↦ n (Slot.hasToken k)
  byIp : Counts m.byIp fun k ↦ n (Slot.hasIp k)
  capTotal : 0 < m.limits.wsConnsTotal → (n fun _ ↦ true : Int) ≤ m.limits.wsConnsTotal
  capUser : 0 < m.limits.wsConnsPerUser → ∀ k, (n (Slot.hasUser k) : Int) ≤ m.limits.wsConnsPerUser
  capToken : 0 < m.limits.wsConnsPerToken →
    ∀ k, (n (Slot.hasToken k) : Int) ≤ m.limits.wsConnsPerToken
  capIp : 0 < m.limits.wsConnsPerIp → ∀ k, (n (Slot.hasIp k) : Int) ≤ m.limits.wsConnsPerIp

theorem Slot.toNat_hasUser (k : String) (s : Slot) :
    (s.hasUser k).toNat = if k = s.userId then 1 else 0 := by
  by_cases h : k = s.userId <;> simp [hasUser, h, eq_comm]

theorem Slot.toNat_hasToken (k : String) (s : Slot) :
    (s.hasToken k).toNat = if k = s.tokenId ∧ s.tokenId ≠ "" then 1 else 0 := by
  by_cases h : k = s.tokenId <;> by_cases hk : s.tokenId = "" <;> simp [hasToken, h, hk, eq_comm]

theorem Slot.toNat_hasIp (k : String) (s : Slot) :
    (s.hasIp k).toNat = if k = s.ip ∧ s.ip ≠ "" then 1 else 0 := by
  by_cases h : k = s.ip <;> by_cases hk : s.ip = "" <;> simp [hasIp, h, hk, eq_comm]

/-- A slot that is counted under a key was below that key's limit. -/
theorem cap_add {n : ℕ} {limit : Int} {b : Bool} (hcap : 0 < limit → (n : Int) ≤ limit)
    (hover : b = true → ¬ overLimit n limit = true) (hpos : 0 < limit) :
    ((n + b.toNat : ℕ) : Int) ≤ limit := by
  have hn := hcap hpos
  cases b with
  | false => simpa using hn
  | true =>
    have hlt := hover rfl
    simp only [overLimit, Bool.and_eq_true, decide_eq_true_eq, ge_iff_le, not_and] at hlt
    have hlt' := hlt hpos
    simp only [Bool.toNat_true]
    omega

namespace Tallied

variable {m m' : UserMap} {n n' : (Slot → Bool) → ℕ} {s : Slot}

/-- **Reserving** counts one slot more, within the limits. -/
theorem reserve (h : Tallied m n) (hok : m.reserve s = .ok m')
    (hn : ∀ p, n' p = n p + (p s).toNat) : Tallied m' n' := by
  unfold UserMap.reserve at hok
  split at hok
  · cases hok
  split at hok
  · cases hok
  split at hok
  · cases hok
  split at hok
  · cases hok
  split at hok
  · cases hok
  next htotal huser htoken hip =>
    cases hok
    rw [h.total] at htotal
    rw [h.byUserN.entry_eq] at huser
    rw [h.byToken.entry_eq] at htoken
    rw [h.byIp.entry_eq] at hip
    refine ⟨?_, h.byUserN.bump fun k ↦ ?_, h.byToken.incr fun k ↦ ?_, h.byIp.incr fun k ↦ ?_,
      fun hpos ↦ ?_, fun hpos k ↦ ?_, fun hpos k ↦ ?_, fun hpos k ↦ ?_⟩
    · rw [hn, h.total]
      simp
    · rw [hn, Slot.toNat_hasUser]
    · rw [hn, Slot.toNat_hasToken]
    · rw [hn, Slot.toNat_hasIp]
    · rw [hn]
      exact cap_add h.capTotal (fun _ ↦ htotal) hpos
    · rw [hn]
      refine cap_add (fun hp ↦ h.capUser hp k) (fun hk ↦ ?_) hpos
      obtain rfl : s.userId = k := by simpa [Slot.hasUser] using hk
      exact huser
    · rw [hn]
      refine cap_add (fun hp ↦ h.capToken hp k) (fun hk ↦ ?_) hpos
      obtain ⟨hne, rfl⟩ : k ≠ "" ∧ s.tokenId = k := by simpa [Slot.hasToken] using hk
      exact fun hover ↦ htoken ⟨hne, hover⟩
    · rw [hn]
      refine cap_add (fun hp ↦ h.capIp hp k) (fun hk ↦ ?_) hpos
      obtain ⟨hne, rfl⟩ : k ≠ "" ∧ s.ip = k := by simpa [Slot.hasIp] using hk
      exact fun hover ↦ hip ⟨hne, hover⟩

theorem setByUser (h : Tallied m n) (byUser : AList fun _ : String ↦ List ℕ) :
    Tallied { m with byUser } n :=
  ⟨h.total, h.byUserN, h.byToken, h.byIp, h.capTotal, h.capUser, h.capToken, h.capIp⟩

/-- **Releasing** counts one slot less. -/
theorem release (h : Tallied m n) (hn : ∀ p, n p = n' p + (p s).toNat) (huser : s.userId ≠ "") :
    Tallied (m.release s) n' := by
  have hle (p : Slot → Bool) : (n' p : Int) ≤ n p := by
    rw [hn p]
    exact Int.ofNat_le.2 (Nat.le_add_right _ _)
  refine ⟨?_, h.byUserN.decr fun k ↦ ?_, h.byToken.decr fun k ↦ ?_, h.byIp.decr fun k ↦ ?_,
    fun hpos ↦ Int.le_trans (hle _) (h.capTotal hpos),
    fun hpos k ↦ Int.le_trans (hle _) (h.capUser hpos k),
    fun hpos k ↦ Int.le_trans (hle _) (h.capToken hpos k),
    fun hpos k ↦ Int.le_trans (hle _) (h.capIp hpos k)⟩
  · show m.total - 1 = _
    rw [h.total, hn]
    simp
  · rw [hn, Slot.toNat_hasUser]
    simp [huser]
  · rw [hn, Slot.toNat_hasToken]
  · rw [hn, Slot.toNat_hasIp]

end Tallied

end Nexo.Gateway
