import Nexo.Gateway.Presence
import Mathlib.Algebra.BigOperators.Group.List.Basic
import Mathlib.Data.Int.Basic

/-!
# Who watches whom

The registry of the presence scheduler: the map `active` from clients to subscriptions, its inverse
`byUser`, and the number of references. The loops over the ids of a subscription are given by what
they do to the watchers of each user.
-/

namespace Nexo.Gateway.Presence

open List Option

/-- The clients that watch a user. -/
def watchers (byUser : AList fun _ : String ↦ Finset ℕ) (id : String) : Finset ℕ :=
  (byUser.lookup id).getD ∅

/-- No user has an empty entry. -/
def NoEmpty (byUser : AList fun _ : String ↦ Finset ℕ) : Prop := ∀ id, byUser.lookup id ≠ some ∅

section ByUser

variable {byUser : AList fun _ : String ↦ Finset ℕ} {c : ℕ} {id id' : String} {ids : List String}

theorem watchers_unwatch :
    watchers (unwatch c byUser id) id' =
      if id' = id then (watchers byUser id').erase c else watchers byUser id' := by
  unfold unwatch watchers
  rcases hid : byUser.lookup id with - | clients <;> dsimp only
  · by_cases heq : id' = id
    · subst heq
      simp [hid]
    · simp [heq]
  by_cases heq : id' = id
  · subst heq
    rw [if_pos rfl, hid, getD_some]
    split
    next hnil => rw [AList.lookup_erase, hnil, getD_none]
    next => rw [AList.lookup_insert, getD_some]
  · rw [if_neg heq]
    split
    · rw [AList.lookup_erase_ne heq]
    · rw [AList.lookup_insert_ne heq]

theorem NoEmpty.unwatch (h : NoEmpty byUser) : NoEmpty (unwatch c byUser id) := by
  intro id'
  unfold Presence.unwatch
  rcases byUser.lookup id with - | clients
  · exact h id'
  dsimp only
  by_cases heq : id' = id
  · subst heq
    split
    next => simp
    next hne => simpa using hne
  · split
    · rw [AList.lookup_erase_ne heq]
      exact h id'
    · rw [AList.lookup_insert_ne heq]
      exact h id'

theorem watchers_watch :
    watchers (watch c byUser id) id' =
      if id' = id then insert c (watchers byUser id') else watchers byUser id' := by
  unfold watch watchers
  split
  next heq => rw [heq, AList.lookup_insert, getD_some]
  next heq => rw [AList.lookup_insert_ne heq]

theorem NoEmpty.watch (h : NoEmpty byUser) : NoEmpty (watch c byUser id) := by
  intro id'
  unfold Presence.watch
  by_cases heq : id' = id
  · subst heq
    rw [AList.lookup_insert]
    simp
  · rw [AList.lookup_insert_ne heq]
    exact h id'

/-- A loop that handles one id at a time handles each of them. -/
theorem watchers_foldl {op : (AList fun _ : String ↦ Finset ℕ) → String → AList fun _ : String ↦ Finset ℕ}
    {f : Finset ℕ → Finset ℕ} (hf : ∀ s, f (f s) = f s)
    (hop : ∀ m id id', watchers (op m id) id' = if id' = id then f (watchers m id') else watchers m id') :
    watchers (ids.foldl op byUser) id' =
      if id' ∈ ids then f (watchers byUser id') else watchers byUser id' := by
  induction ids generalizing byUser with
  | nil => simp
  | cons id ids ih =>
    rw [foldl_cons, ih, hop]
    by_cases heq : id' = id
    · simp [heq, hf]
    · simp [heq]

theorem watchers_unwatchAll :
    watchers (ids.foldl (unwatch c) byUser) id' =
      if id' ∈ ids then (watchers byUser id').erase c else watchers byUser id' :=
  watchers_foldl (f := (·.erase c)) (fun _ ↦ Finset.erase_idem) fun _ _ _ ↦ watchers_unwatch

theorem watchers_watchAll :
    watchers (ids.foldl (watch c) byUser) id' =
      if id' ∈ ids then insert c (watchers byUser id') else watchers byUser id' :=
  watchers_foldl (f := (insert c ·)) (fun _ ↦ Finset.insert_idem ..) fun _ _ _ ↦ watchers_watch

theorem NoEmpty.foldl {op : (AList fun _ : String ↦ Finset ℕ) → String → AList fun _ : String ↦ Finset ℕ}
    (hop : ∀ m id, NoEmpty m → NoEmpty (op m id)) (h : NoEmpty byUser) : NoEmpty (ids.foldl op byUser) := by
  induction ids generalizing byUser with
  | nil => exact h
  | cons id ids ih => exact ih (hop _ _ h)

end ByUser

/-! ### References -/

/-- The number of references of the active subscriptions. -/
def refCount (subs : ℕ → Subscription) (active : AList fun _ : ℕ ↦ ℕ) : Int :=
  (active.entries.map fun e ↦ ((subs e.2).userIds.length : Int)).sum

section RefCount

variable {subs subs' : ℕ → Subscription} {active : AList fun _ : ℕ ↦ ℕ} {c i : ℕ}

theorem refCount_insert (h : active.lookup c = none) :
    refCount subs (active.insert c i) = refCount subs active + (subs i).userIds.length := by
  have hc : c ∉ active := AList.lookup_eq_none.1 h
  rw [refCount, AList.entries_insert_of_notMem hc, map_cons, sum_cons, refCount, add_comm]

theorem refCount_erase (h : active.lookup c = some i) :
    refCount subs (active.erase c) + (subs i).userIds.length = refCount subs active := by
  have hc : c ∈ active.entries.keys := mem_keys_of_mem (AList.mem_lookup_iff.1 h)
  obtain ⟨j, l₁, l₂, -, heq, herase⟩ := exists_of_kerase hc
  have hj : (⟨c, j⟩ : Sigma fun _ : ℕ ↦ ℕ) ∈ active.entries := by simp [heq]
  obtain rfl : j = i := some.inj ((AList.mem_lookup_iff.2 hj).symm.trans h)
  have herase' : (active.erase c).entries = l₁ ++ l₂ := herase
  rw [refCount, refCount, herase', heq]
  simp only [map_append, sum_append, map_cons, sum_cons]
  omega

theorem refCount_congr (h : ∀ c i, active.lookup c = some i → (subs' i).userIds = (subs i).userIds) :
    refCount subs' active = refCount subs active := by
  rw [refCount, refCount]
  congr 1
  refine map_congr_left fun e he ↦ ?_
  rw [h e.1 e.2 (AList.mem_lookup_iff.2 he)]

end RefCount

/-! ### The registry -/

variable {L : Type}

/-- **The registry is exact**: one object for each client that ever subscribed, in `active` as long
as it is current and not empty, and in `byUser` under the ids it watches. -/
structure Registered (p : Presence L) : Prop where
  current : ∀ c i, p.onlineSub c = some i → i < p.fresh ∧ (p.subs i).client = c
  owner : ∀ i < p.fresh, ∀ j < p.fresh, (p.subs i).client = (p.subs j).client → i = j
  live : ∀ i < p.fresh, p.done (p.subs i).client = false → p.stopped = false →
    p.onlineSub (p.subs i).client = some i
  active : ∀ c i, p.active.lookup c = some i ↔ p.onlineSub c = some i ∧ (p.subs i).userIds ≠ []
  watched : ∀ id c, c ∈ watchers p.byUser id ↔
    ∃ i, p.active.lookup c = some i ∧ id ∈ (p.subs i).userIds
  noEmpty : NoEmpty p.byUser
  ids : ∀ i, (p.subs i).userIds.Nodup ∧ (p.subs i).userIds.length ≤ maxOnlineSubscriptions
  refs : p.refs = refCount p.subs p.active
  cap : p.refs ≤ maxOnlineSubscriptionRefs

variable {p p' : Presence L} {c i : ℕ}

theorem registered_new (frames : L) : Registered (new frames) where
  current _ _ h := by cases h
  owner i hi := absurd hi (Nat.not_lt_zero i)
  live i hi := absurd hi (Nat.not_lt_zero i)
  active _ _ := ⟨nofun, fun h ↦ nomatch h.1⟩
  watched _ c := ⟨fun h ↦ absurd h (Finset.notMem_empty c), fun ⟨_, h, _⟩ ↦ by cases h⟩
  noEmpty _ h := by cases h
  ids _ := ⟨nodup_nil, Nat.zero_le _⟩
  refs := rfl
  cap := show (0 : Int) ≤ 100000 by decide

/-- What the registry does not look at may change. -/
theorem Registered.congr (h : Registered p) (hfresh : p'.fresh = p.fresh)
    (hcurrent : p'.onlineSub = p.onlineSub) (hactive : p'.active = p.active)
    (hbyUser : p'.byUser = p.byUser) (hrefs : p'.refs = p.refs)
    (hdone : ∀ c, p'.done c = false → p.done c = false)
    (hstopped : p'.stopped = false → p.stopped = false)
    (hsubs : ∀ i, (p'.subs i).client = (p.subs i).client ∧ (p'.subs i).userIds = (p.subs i).userIds) :
    Registered p' := by
  refine ⟨fun c i hi ↦ ?_, fun i hi j hj heq ↦ ?_, fun i hi hd hs ↦ ?_, fun c i ↦ ?_, fun id c ↦ ?_, ?_,
    fun i ↦ ?_, ?_, ?_⟩
  · rw [hfresh, (hsubs i).1]
    exact h.current c i (hcurrent ▸ hi)
  · rw [(hsubs i).1, (hsubs j).1] at heq
    exact h.owner i (hfresh ▸ hi) j (hfresh ▸ hj) heq
  · rw [(hsubs i).1] at hd ⊢
    rw [hcurrent]
    exact h.live i (hfresh ▸ hi) (hdone _ hd) (hstopped hs)
  · rw [hactive, hcurrent, (hsubs i).2]
    exact h.active c i
  · rw [hbyUser, hactive, h.watched]
    simp only [(hsubs _).2]
  · exact hbyUser ▸ h.noEmpty
  · rw [(hsubs i).2]
    exact h.ids i
  · rw [hrefs, hactive, h.refs]
    exact (refCount_congr fun _ i _ ↦ (hsubs i).2).symm
  · exact hrefs ▸ h.cap

/-- **What `remove` does** to the current subscription `i` of client `c`. -/
structure Removed (p : Presence L) (c i : ℕ) (p' : Presence L) : Prop where
  heap : p'.due.Ok (key p'.subs)
  has : ∀ j, p'.due.Has j ↔ p.due.Has j ∧ j ≠ i
  subs : p'.subs = Function.update p.subs i { p.subs i with remark := false }
  active : ∀ c', p'.active.lookup c' = if c' = c then none else p.active.lookup c'
  watchers : ∀ id, watchers p'.byUser id = (watchers p.byUser id).erase c
  noEmpty : NoEmpty p'.byUser
  refs : p'.refs = p.refs - (p.subs i).userIds.length
  refCount : refCount p.subs p'.active + (p.subs i).userIds.length = refCount p.subs p.active
  frame : p' = { p with subs := p'.subs, due := p'.due, active := p'.active, refs := p'.refs,
                        byUser := p'.byUser }

theorem removed (h : Registered p) (hheap : p.due.Ok (key p.subs)) (hi : p.onlineSub c = some i) :
    Removed p c i (p.remove i) := by
  obtain ⟨-, hclient⟩ := h.current c i hi
  -- the queue first
  obtain ⟨hok, hhas⟩ : (p.unmark i).due.Ok (key p.subs) ∧
      ∀ j, (p.unmark i).due.Has j ↔ p.due.Has j ∧ j ≠ i := by
    simp only [unmark]
    split
    next hq =>
      obtain ⟨hok, -, hhas⟩ := hheap.remove hq
      exact ⟨hok, hhas⟩
    next hq => exact ⟨hheap, fun j ↦ ⟨fun hj ↦ ⟨hj, fun hji ↦ hq (hji ▸ hj)⟩, And.left⟩⟩
  have hok' : (p.unmark i).due.Ok (key (p.unmark i).subs) := by
    refine hok.congr fun j _ ↦ ?_
    by_cases hji : j = i
    · subst hji
      simp [key, unmark, write]
    · simp [key, unmark, write, hji]
  have hself : (p.unmark i).subs i = { p.subs i with remark := false } := by simp [unmark, write]
  have hactive : (p.unmark i).active.lookup ((p.unmark i).subs i).client = p.active.lookup c := by
    rw [hself]
    exact congrArg (p.active.lookup ·) hclient
  simp only [remove, unregister, hactive]
  rcases hlookup : p.active.lookup c with - | j <;> dsimp only
  · -- a current subscription that is not active watches nobody
    have hnil : (p.subs i).userIds = [] := by
      by_contra hne
      rw [(h.active c i).2 ⟨hi, hne⟩] at hlookup
      cases hlookup
    refine ⟨hok', hhas, rfl, fun c' ↦ ?_, fun id ↦ ?_, h.noEmpty, ?_, ?_, rfl⟩
    · split
      next heq => exact heq ▸ hlookup
      next => rfl
    · refine (Finset.erase_eq_of_notMem fun hc ↦ ?_).symm
      obtain ⟨j, hj, -⟩ := (h.watched id c).1 hc
      rw [hlookup] at hj
      cases hj
    · simp [hnil, unmark, write]
    · simp [hnil, unmark, write]
  · obtain rfl : j = i := some.inj (((h.active c j).1 hlookup).1.symm.trans hi)
    simp only [hself, hclient]
    refine ⟨hok', hhas, rfl, fun c' ↦ ?_, fun id ↦ ?_, h.noEmpty.foldl fun _ _ hm ↦ hm.unwatch, rfl,
      refCount_erase hlookup, rfl⟩
    · split
      next heq => exact heq ▸ AList.lookup_erase _ _
      next hne => exact AList.lookup_erase_ne hne
    · rw [watchers_unwatchAll]
      split
      next => rfl
      next hid =>
        refine (Finset.erase_eq_of_notMem fun hc ↦ ?_).symm
        obtain ⟨k, hk, hmem⟩ := (h.watched id c).1 hc
        obtain rfl : k = j := some.inj (hk.symm.trans hlookup)
        exact hid hmem

end Nexo.Gateway.Presence
