import Nexo.Gateway.Quota

/-!
# Connection quota

What the slots of `Nexo.Gateway.Lifecycle` guarantee, in every interleaving of the parties of any
number of connections: the counters are exact, the limits hold, every slot that was reserved is
given back exactly once, a closed client is not in the registry, and closing the registry is final.
-/

namespace Nexo.Gateway

open Machine List Bool

/-- The slots that are outstanding: of reservations that are neither released nor adopted, and of
the clients in the registry. -/
def State.outstanding (s : State) : List Slot :=
  (s.conns.zipIdx.filter fun (c, i) ↦ c.pending || i ∈ s.users.get c.slot.userId).map (·.1.slot)

/-- **Nothing of a connection is left**: `Handle` returned, the watcher is gone, the callback is not
between its claim and `Adopt`, and the client, if there is one, has been closed. -/
def Conn.quiescent (c : Conn) : Bool :=
  (c.handle = .finished || c.handle = .rejected) &&
    (c.watcher = .none || c.watcher = .exited) && c.callback ≠ .claimed &&
    (c.close = .none || c.close = .finished)

namespace Conn

variable {c : Conn}

theorem Ok.given_le (h : c.Ok) : c.given ≤ 1 := by
  have howner := h.owner
  have hle := toNat_le c.settled
  unfold holders at howner
  omega

theorem Ok.reserved_of_registered (h : c.Ok) (hreg : c.registered = true) : c.reserved = true := by
  refine h.reserved_of_callback fun hidle ↦ ?_
  simp [registered, hidle] at hreg

/-- **A slot is outstanding** while it is a pending reservation or a registered client's. -/
theorem Ok.outstanding_eq (h : c.Ok) : c.outstanding = (c.pending || c.registered) := by
  rcases hreg : c.registered with - | -
  · -- an adopted client that is not registered any more has given its slot back
    by_cases hcb : c.callback = .adopted
    · obtain ⟨hsettled, h₁, h₂, h₃⟩ := h.won (.inr (.inl hcb))
      have howner := h.owner
      simp only [holders, hreg, hsettled, h₁, h₂, h₃, hcb] at howner
      have hgiven : c.given = 1 := by simpa using howner
      simp [outstanding, pending, hgiven]
    · simp [outstanding, pending, hcb]
  · simp [outstanding, h.given_of_registered hreg, h.reserved_of_registered hreg]

/-- **Exactly once**: when nothing is left of a connection, its slot has been given back. -/
theorem Ok.given_of_quiescent (h : c.Ok) (hres : c.reserved = true) (hq : c.quiescent = true) :
    c.given = 1 := by
  simp only [quiescent, and_eq_true, or_eq_true, decide_eq_true_eq] at hq
  obtain ⟨⟨⟨hhandle, hwatcher⟩, hcb⟩, hclose⟩ := hq
  have hfin : c.handle = .finished := by
    rcases hhandle with hf | hr
    · exact hf
    · simp [reserved, hr] at hres
  have hsettled : c.settled = true := h.watched (by simp [Conn.unwatched, hfin]) hwatcher
  have hreg : c.registered = false := by
    rcases hclose with hnone | hfinished
    · rcases h.client.1 hnone with hi | hi | hi <;> simp [registered, hi]
    · simp [registered, hfinished]
  have hrel : c.watcher ≠ .release := by rcases hwatcher with hw | hw <;> simp [hw]
  have howner := h.owner
  simp only [holders, hfin, hsettled, hreg, hrel, hcb] at howner
  simpa using howner

/-- As long as something of a connection is left, it can move. -/
theorem exists_move (s : State) (i : ℕ) (hq : c.quiescent = false) :
    ∃ m, (c.next s i m).isSome := by
  by_contra hno
  push Not at hno
  have hhandle : c.handle = .finished ∨ c.handle = .rejected := by
    have hm := hno (.handle true)
    simp only [next, handleNext] at hm
    rcases hh : c.handle <;> simp_all <;> (split at hm <;> simp at hm)
  have hwatcher : c.watcher = .none ∨ c.watcher = .exited := by
    have hm := hno (.watcher true)
    simp only [next, watcherNext] at hm
    rcases hw : c.watcher <;> simp_all
  have hcallback : c.callback ≠ .claimed := by
    intro hcb
    have hm := hno .callback
    simp only [next, callbackNext, hcb] at hm
    split at hm <;> simp at hm
  have hclose : c.close = .none ∨ c.close = .finished := by
    have hm := hno .close
    simp only [next, closeNext] at hm
    rcases hcl : c.close <;> simp_all
  simp only [quiescent, and_eq_false_iff, or_eq_false_iff, decide_eq_false_iff_not] at hq
  rcases hq with ((hq | hq) | hq) | hq
  · exact hhandle.elim hq.1 hq.2
  · exact hwatcher.elim hq.1 hq.2
  · exact hq hcallback
  · exact hclose.elim hq.1 hq.2

/-- How many steps the parties of a connection have left, at most. -/
def rank (c : Conn) : ℕ :=
  (11 - c.handle.ctorIdx) + (4 - c.watcher.ctorIdx) + (5 - c.callback.ctorIdx) +
    (7 - c.close.ctorIdx)

/-- Every move brings a connection closer to its end. -/
theorem Ok.rank_lt {s : State} {i : ℕ} {m : Move} {c' : Conn} {users : UserMap} (h : c.Ok)
    (hnext : c.next s i m = some (c', users)) : c'.rank < c.rank := by
  obtain ⟨-, hun, -, hearly, hclient, -⟩ := h
  rcases c with ⟨slot, handle, watcher, callback, close, settled, given⟩
  cases m with
  | handle ok =>
    cases handle <;> simp only [Conn.next, Conn.handleNext, claim] at hnext
    case rejected | finished => cases hnext
    case start => split at hnext <;> cases hnext <;> simp [rank, HandlePc.ctorIdx]
    case begin_ =>
      obtain rfl := (hun (by simp [Conn.unwatched])).1
      split at hnext <;> cases hnext <;> simp [rank, HandlePc.ctorIdx, WatcherPc.ctorIdx]
    case upgrade =>
      obtain rfl := hearly (by simp [Conn.early])
      cases hnext
      simp only [rank, HandlePc.ctorIdx, CallbackPc.ctorIdx]
      omega
    case watch | check =>
      cases hnext
      simp only [rank]
      split <;> simp [HandlePc.ctorIdx]
    case upgrading =>
      cases hnext
      cases ok <;> simp [rank, HandlePc.ctorIdx]
    all_goals cases hnext
    all_goals cases settled <;> simp [rank, HandlePc.ctorIdx]
  | watcher woken =>
    cases watcher <;> simp only [Conn.next, Conn.watcherNext, claim] at hnext
    case none | exited => cases hnext
    case waiting =>
      repeat' split at hnext
      all_goals cases hnext
      all_goals simp [rank, WatcherPc.ctorIdx]
    all_goals cases hnext
    all_goals cases settled <;> simp [rank, WatcherPc.ctorIdx]
  | callback =>
    cases callback <;> simp only [Conn.next, Conn.callbackNext, claim] at hnext
    case pending =>
      obtain rfl := hclient.2 (.inr (.inl rfl))
      cases hnext
      cases settled <;> simp [rank, CallbackPc.ctorIdx, ClosePc.ctorIdx]
    case claimed => split at hnext <;> cases hnext <;> simp [rank, CallbackPc.ctorIdx]
    all_goals cases hnext
  | close =>
    cases close <;> simp only [Conn.next, Conn.closeNext] at hnext
    all_goals cases hnext
    all_goals simp [rank, ClosePc.ctorIdx]

end Conn

/-! ### The registry -/

section Node

variable {limits : Limits} {s s' : State} {e : Event}

/-- The entry of a counter: there is none for zero. -/
def entryOf (n : ℕ) : Option Int := if n = 0 then none else some n

theorem outstanding_eq_filter (h : Accounted limits s) :
    s.outstanding = (s.conns.filter Conn.outstanding).map (·.slot) := by
  have hfilter : (s.conns.zipIdx.filter fun (c, i) ↦ c.pending || i ∈ s.users.get c.slot.userId) =
      s.conns.zipIdx.filter fun ci ↦ ci.1.outstanding := by
    refine filter_congr fun ⟨c, i⟩ hci ↦ ?_
    have hc : s.conns[i]? = some c := mem_zipIdx_iff_getElem?.1 hci
    have hreg : decide (i ∈ s.users.get c.slot.userId) = c.registered := by
      rw [Bool.eq_iff_iff, decide_eq_true_iff, h.mem_iff hc]
    simp only [hreg, (h.conns i c hc).1.outstanding_eq]
  have hmap : (s.conns.zipIdx.filter fun ci ↦ ci.1.outstanding).map Prod.fst =
      s.conns.filter Conn.outstanding := by
    have hcomp := filter_map (f := Prod.fst) (p := Conn.outstanding) (l := s.conns.zipIdx)
    rw [zipIdx_map_fst] at hcomp
    exact hcomp.symm
  rw [State.outstanding, hfilter, ← hmap, map_map]
  rfl

theorem countP_outstanding (h : Accounted limits s) (p : Slot → Bool) :
    s.outstanding.countP p = countSlots s.conns p := by
  rw [outstanding_eq_filter h, countSlots, tally_toNat, countP_map, countP_filter]
  exact countP_congr fun c _ ↦ by simp [Bool.and_comm]

/-- A key that may be missing counts no slot when it is empty. -/
theorem count_key (h : Accounted limits s) (key : Slot → String) (k : String) :
    (countSlots s.conns fun slot ↦ k ≠ "" && key slot = k) =
      if k = "" then 0 else s.outstanding.countP (key · = k) := by
  rw [← countP_outstanding h]
  split
  next hk => exact countP_eq_zero.2 fun slot _ ↦ by simp [hk]
  next hk => exact countP_congr fun slot _ ↦ by simp [hk]

theorem entryOf_key (k : String) (n : ℕ) :
    entryOf (if k = "" then 0 else n) = if k = "" then none else entryOf n := by
  split <;> rfl

/-- Nobody is added to a closed registry. -/
theorem get_subset_of_closing (h : Accounted limits s) (hnext : s.next e = some s')
    (hclosing : s.users.closing = true) :
    s'.users.closing = true ∧ ∀ u, ∀ i ∈ s'.users.get u, i ∈ s.users.get u := by
  cases e with
  | arrive slot =>
    simp only [State.next] at hnext
    split at hnext
    · cases hnext
    · cases hnext
      exact ⟨hclosing, fun u i hi ↦ hi⟩
  | cancelRun | sealWork =>
    cases hnext
    exact ⟨hclosing, fun u i hi ↦ hi⟩
  | closeUsers =>
    cases hnext
    exact ⟨rfl, fun u i hi ↦ hi⟩
  | move i m =>
    simp only [State.next] at hnext
    split at hnext
    · cases hnext
    next c hc =>
      obtain ⟨⟨c', users⟩, hmove, rfl⟩ := Option.map_eq_some_iff.1 hnext
      obtain ⟨-, -, hmoved⟩ := (h.conns i c hc).1.next (h.mem_iff hc) hmove
      cases hmoved with
      | frame => exact ⟨hclosing, fun u i hi ↦ hi⟩
      | reserve hok =>
        obtain ⟨-, hbyUser, hcl⟩ := UserMap.reserve_eq_ok hok
        refine ⟨hcl.trans hclosing, fun u j hj ↦ ?_⟩
        rwa [UserMap.get, hbyUser] at hj
      | release => exact ⟨hclosing, fun u i hi ↦ hi⟩
      | adopt hadopt =>
        obtain ⟨-, hopen, -⟩ := UserMap.adopt_eq_ok hadopt
        rw [hclosing] at hopen
        cases hopen
      | unregister hout hout' hreg =>
        have hin := (h.mem_iff hc).2 hreg
        refine ⟨?_, fun u j hj ↦ ?_⟩
        · rw [UserMap.unregister, if_pos hin]
          exact hclosing
        · rw [UserMap.get_unregister hin] at hj
          split at hj
          next hu => exact hu ▸ mem_of_mem_erase hj
          next => exact hj

/-- **Connection quota.** In every reachable state the counters count the outstanding slots, key by
key and without an entry for zero or for an empty token or address; no positive limit is exceeded; a
reserved slot has been given back at most once, not at all while it is outstanding, and exactly once
when nothing of its connection is left, which every move of its parties brings closer; a client
whose `close` returned is in no list; the lists have no duplicates; and once `UserMap.Close`
returned, they only shrink, within what it returned. -/
theorem quota_lifecycle (h : (lifecycle limits).Reachable s) :
    (s.users.total = s.outstanding.length ∧
      (∀ k, s.users.byUserN.lookup k = entryOf (s.outstanding.countP (·.userId = k))) ∧
      (∀ k, s.users.byToken.lookup k =
        if k = "" then none else entryOf (s.outstanding.countP (·.tokenId = k))) ∧
      (∀ k, s.users.byIp.lookup k =
        if k = "" then none else entryOf (s.outstanding.countP (·.ip = k)))) ∧
    ((0 < limits.wsConnsTotal → (s.outstanding.length : Int) ≤ limits.wsConnsTotal) ∧
      (0 < limits.wsConnsPerUser →
        ∀ k, (s.outstanding.countP (·.userId = k) : Int) ≤ limits.wsConnsPerUser) ∧
      (0 < limits.wsConnsPerToken →
        ∀ k ≠ "", (s.outstanding.countP (·.tokenId = k) : Int) ≤ limits.wsConnsPerToken) ∧
      (0 < limits.wsConnsPerIp →
        ∀ k ≠ "", (s.outstanding.countP (·.ip = k) : Int) ≤ limits.wsConnsPerIp)) ∧
    (∀ (i : ℕ) (c : Conn), s.conns[i]? = some c →
      c.given ≤ 1 ∧
      (c.reserved = true → (c.given = 0 ↔ c.pending = true ∨ i ∈ s.users.get c.slot.userId)) ∧
      (c.reserved = true → c.quiescent = true → c.given = 1) ∧
      (c.quiescent = false → ∃ m, (c.next s i m).isSome) ∧
      (∀ m c' users, c.next s i m = some (c', users) → c'.rank < c.rank) ∧
      (c.close = .finished → ∀ u, i ∉ s.users.get u)) ∧
    (∀ u, (s.users.get u).Nodup) ∧
    (∀ snap ∈ s.snapshots, ∀ u, ∀ i ∈ s.users.get u, i ∈ snap) ∧
    (s.snapshots ≠ [] → ∀ t s', (lifecycle limits).Path s t s' →
      ∀ u, ∀ i ∈ s'.users.get u, i ∈ s.users.get u) := by
  have hacc := accounted h
  have htotal : s.outstanding.length = countSlots s.conns fun _ ↦ true := by
    rw [← countP_outstanding hacc, List.countP_true]
  have huser (k : String) : s.outstanding.countP (·.userId = k) =
      countSlots s.conns (Slot.hasUser k) := countP_outstanding hacc _
  have htoken (k : String) : countSlots s.conns (Slot.hasToken k) =
      if k = "" then 0 else s.outstanding.countP (·.tokenId = k) := count_key hacc (·.tokenId) k
  have hip (k : String) : countSlots s.conns (Slot.hasIp k) =
      if k = "" then 0 else s.outstanding.countP (·.ip = k) := count_key hacc (·.ip) k
  obtain ⟨hlimits, hconns, hmembers, hnodup, ht, hclosing, hsnap⟩ := hacc
  subst hlimits
  refine ⟨⟨?_, fun k ↦ ?_, fun k ↦ ?_, fun k ↦ ?_⟩,
    ⟨fun hpos ↦ ?_, fun hpos k ↦ ?_, fun hpos k hk ↦ ?_, fun hpos k hk ↦ ?_⟩, fun i c hc ↦ ?_, hnodup,
    hsnap, fun hs t s' hpath ↦ ?_⟩
  · rw [ht.total, htotal]
  · rw [ht.byUserN k, huser, entryOf]
  · rw [← entryOf_key, ← htoken]
    exact ht.byToken k
  · rw [← entryOf_key, ← hip]
    exact ht.byIp k
  · rw [htotal]
    exact ht.capTotal hpos
  · rw [huser]
    exact ht.capUser hpos k
  · have hcap := ht.capToken hpos k
    rwa [htoken k, if_neg hk] at hcap
  · have hcap := ht.capIp hpos k
    rwa [hip k, if_neg hk] at hcap
  · have hok := (hconns i c hc).1
    have hmem := (accounted h).mem_iff hc
    refine ⟨hok.given_le, fun hres ↦ ?_, hok.given_of_quiescent, c.exists_move s i,
      fun m c' users ↦ hok.rank_lt, fun hfin u hi ↦ ?_⟩
    · have hout := hok.outstanding_eq
      rw [Conn.outstanding, hres, Bool.true_and, Bool.eq_iff_iff, decide_eq_true_iff] at hout
      rw [hout, Bool.or_eq_true, hmem]
    · obtain ⟨d, hd, -, hreg⟩ := (hmembers u i).1 hi
      obtain rfl := Option.some.inj (hc.symm.trans hd)
      simp [Conn.registered, hfin] at hreg
  · refine (hpath.keeps (P := fun s' ↦ s'.users.closing = true ∧
      ∀ u, ∀ i ∈ s'.users.get u, i ∈ s.users.get u) (fun s₁ e s₂ hr hP hstep ↦ ?_) h
      ⟨hclosing hs, fun u i hi ↦ hi⟩).2.2
    obtain ⟨hcl, hsub⟩ := get_subset_of_closing (accounted hr) hstep hP.1
    exact ⟨hcl, fun u i hi ↦ hP.2 u i (hsub u i hi)⟩

end Node

namespace QuotaDemo

/-- One connection of `alice` is adopted, a second is refused, and one of `bob` times out while the
registry is closed. -/
def run : List Event :=
  [.arrive ⟨"alice", "t1", "::1"⟩, .arrive ⟨"alice", "", "::1"⟩, .arrive ⟨"bob", "", "::1"⟩,
    .move 0 (.handle true), .move 1 (.handle true), .move 2 (.handle true), .move 0 (.handle true),
    .move 0 (.handle true), .move 0 (.handle true), .move 0 (.handle true), .move 0 .callback,
    .move 0 .callback, .move 2 (.handle true), .move 2 (.handle true), .closeUsers,
    .move 2 (.watcher true), .move 2 (.watcher true)]

def limits : Limits := ⟨10, 1, 0, 0⟩

end QuotaDemo

open QuotaDemo in
theorem quota_lifecycle_demo :
    ∃ s, System.replay State.next { users := .new limits } run = some s ∧
      s.users.total = 2 ∧ s.outstanding.length = 2 ∧ s.users.byIp.lookup "::1" = some 2 ∧
      s.users.byToken.lookup "" = none := by
  have hrun : (System.replay State.next { users := .new limits } run).map State.outstanding =
      some [⟨"alice", "t1", "::1"⟩, ⟨"bob", "", "::1"⟩] := by decide
  obtain ⟨s, hs, hout⟩ := Option.map_eq_some_iff.1 hrun
  have hreach : (lifecycle limits).Reachable s := System.reachable_of_replay hs
  obtain ⟨⟨htotal, -, htoken, hip⟩, -⟩ := quota_lifecycle hreach
  refine ⟨s, hs, ?_, by rw [hout]; rfl, ?_, htoken ""⟩
  · rw [htotal, hout]
    rfl
  · rw [hip, hout]
    rfl

end Nexo.Gateway
