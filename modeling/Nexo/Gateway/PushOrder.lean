import Nexo.Gateway.Push
import Mathlib.Data.Multiset.Range
import Mathlib.Tactic.Abel

/-!
# The way of an event through the shards

Every event that was received is in one place: a worker has taken it, it waits in the queue of its
shard, or it was dropped and counted (`Line.placed`). The events of a shard are taken in the order
in which they were received (`Line.sorted`), and the one the worker is at is the last of them.
-/

namespace Nexo.Gateway

open Machine List

/-- The events of shard `w` that were taken. -/
def takenBy (received : List PushPayload) (n w : ℕ) (taken : List ℕ) : List ℕ :=
  taken.filter fun k ↦ shardAt received n k = w

/-- The events that wait in the shards. -/
def queued (shards : List Shard) : Multiset ℕ := tally (fun shard ↦ (shard.queue : Multiset ℕ)) shards

/-- The events that the workers are at. -/
def current (shards : List Shard) : Multiset ℕ :=
  tally (fun shard ↦ (shard.worker.index.toList : Multiset ℕ)) shards

/-- Where the events are; `past` are those that a worker is done with. -/
structure Line (n : ℕ) (shards : List Shard) (received : List PushPayload) (taken dropped : List ℕ)
    (pushDropped : ℕ) (past : Multiset ℕ) : Prop where
  pos : 0 < n
  length : shards.length = n
  placed : (taken : Multiset ℕ) + dropped + queued shards = Multiset.range received.length
  counted : pushDropped = dropped.length
  sharded : ∀ (w : ℕ) (shard : Shard), shards[w]? = some shard →
    ∀ k ∈ shard.queue, shardAt received n k = w
  sorted : ∀ (w : ℕ) (shard : Shard), shards[w]? = some shard →
    (takenBy received n w taken ++ shard.queue).Pairwise (· < ·)
  last : ∀ (w : ℕ) (shard : Shard), shards[w]? = some shard →
    ∀ k ∈ shard.worker.index, (takenBy received n w taken).getLast? = some k
  processed : (taken : Multiset ℕ) = past + current shards

/-- Where the events of a state are. -/
def PushState.Lined (n : ℕ) (s : PushState) : Prop :=
  Line n s.shards s.received s.taken s.dropped s.pushDropped
    ((s.reports.map (·.index) : Multiset ℕ) + s.failed)

theorem conversationAt_append {received : List PushPayload} {p : PushPayload} {k : ℕ}
    (h : k < received.length) : conversationAt (received ++ [p]) k = conversationAt received k := by
  rw [conversationAt, conversationAt, getElem?_append_left h]

theorem conversationAt_length (received : List PushPayload) (p : PushPayload) :
    conversationAt (received ++ [p]) received.length = p.conversationId := by
  simp [conversationAt]

theorem shardAt_append {received : List PushPayload} {p : PushPayload} {n k : ℕ}
    (h : k < received.length) : shardAt (received ++ [p]) n k = shardAt received n k := by
  rw [shardAt, shardAt, conversationAt_append h]

namespace Line

variable {n : ℕ} {shards : List Shard} {received : List PushPayload} {taken dropped : List ℕ}
  {pushDropped : ℕ} {past : Multiset ℕ} {w : ℕ} {shard : Shard}
  (h : Line n shards received taken dropped pushDropped past)

include h

theorem lt_of_mem {k : ℕ} (hk : k ∈ (taken : Multiset ℕ) + dropped + queued shards) :
    k < received.length := by
  rw [h.placed] at hk
  exact Multiset.mem_range.1 hk

theorem lt_of_mem_taken {k : ℕ} (hk : k ∈ taken) : k < received.length :=
  h.lt_of_mem (by simp [hk])

section

variable (hshard : shards[w]? = some shard)
include hshard

theorem lt_of_mem_queue {k : ℕ} (hk : k ∈ shard.queue) :
    k < received.length := by
  refine h.lt_of_mem (Multiset.mem_add.2 (.inr ?_))
  obtain ⟨rest, hrest, -⟩ := tally_split (fun shard : Shard ↦ (shard.queue : Multiset ℕ)) hshard
  rw [queued, hrest]
  exact Multiset.mem_add.2 (.inr hk)

/-- The event the worker is at was taken, and is of its shard. -/
theorem mem_takenBy {k : ℕ} (hk : k ∈ shard.worker.index) :
    k ∈ takenBy received n w taken :=
  mem_of_getLast? (h.last w shard hshard k hk)

/-- It is the last one. -/
theorem le_of_mem_takenBy {k k' : ℕ} (hk : k ∈ shard.worker.index)
    (hk' : k' ∈ takenBy received n w taken) : k' ≤ k := by
  have hlast := h.last w shard hshard k hk
  have hsorted := (pairwise_append.1 (h.sorted w shard hshard)).1
  obtain ⟨init, hinit⟩ := getLast?_eq_some_iff.1 hlast
  rw [hinit] at hk' hsorted
  rcases mem_append.1 hk' with hmem | hmem
  · exact ((pairwise_append.1 hsorted).2.2 k' hmem k mem_cons_self).le
  · exact (mem_singleton.1 hmem).le

end

/-- No event is taken twice. -/
theorem nodup_taken : taken.Nodup := by
  have hle : (taken : Multiset ℕ) ≤ Multiset.range received.length := by
    rw [← h.placed, add_assoc]
    exact Multiset.le_add_right _ _
  exact Multiset.nodup_of_le hle (Multiset.nodup_range _)

section

variable (hshard : shards[w]? = some shard)
include hshard

/-- The event the worker is at is not over. -/
theorem notMem_over {k : ℕ} (hk : k ∈ shard.worker.index) :
    k ∉ past := by
  intro hover
  obtain ⟨rest, hrest, -⟩ :=
    tally_split (fun shard : Shard ↦ (shard.worker.index.toList : Multiset ℕ)) hshard
  have hnodup : (past + current shards).Nodup := h.processed ▸ Multiset.coe_nodup.2 h.nodup_taken
  refine Multiset.disjoint_left.1 (Multiset.nodup_add.1 hnodup).2.2 hover ?_
  rw [current, hrest]
  exact Multiset.mem_add.2 (.inr (Option.mem_toList.2 hk))

/-- The worker goes on with its event. -/
theorem goto {worker : WorkerPc}
    (hindex : worker.index = shard.worker.index) :
    Line n (shards.set w { shard with worker }) received taken dropped pushDropped past := by
  have hqueued : queued (shards.set w { shard with worker }) = queued shards :=
    add_right_cancel (tally_set _ hshard _)
  have hcurrent : current (shards.set w { shard with worker }) = current shards := by
    have hset := tally_set (fun shard : Shard ↦ (shard.worker.index.toList : Multiset ℕ)) hshard
      { shard with worker }
    rw [hindex] at hset
    exact add_right_cancel hset
  refine ⟨h.pos, by rw [length_set, h.length], by rw [hqueued, h.placed], h.counted, ?_, ?_, ?_,
    by rw [hcurrent, h.processed]⟩
  · exact forall_set (fun j r hj _ ↦ h.sharded j r hj) (h.sharded w shard hshard)
  · exact forall_set (fun j r hj _ ↦ h.sorted j r hj) (h.sorted w shard hshard)
  · exact forall_set (fun j r hj _ ↦ h.last j r hj) fun k hk ↦ h.last w shard hshard k (hindex ▸ hk)

/-- The worker is done with its event. -/
theorem idle :
    Line n (shards.set w { shard with worker := .idle }) received taken dropped pushDropped
      (past + shard.worker.index.toList) := by
  have hqueued : queued (shards.set w { shard with worker := .idle }) = queued shards :=
    add_right_cancel (tally_set _ hshard _)
  have hcurrent := tally_set (fun shard : Shard ↦ (shard.worker.index.toList : Multiset ℕ)) hshard
    { shard with worker := .idle }
  refine ⟨h.pos, by rw [length_set, h.length], by rw [hqueued, h.placed], h.counted, ?_, ?_, ?_, ?_⟩
  · exact forall_set (fun j r hj _ ↦ h.sharded j r hj) (h.sharded w shard hshard)
  · exact forall_set (fun j r hj _ ↦ h.sorted j r hj) (h.sorted w shard hshard)
  · exact forall_set (fun j r hj _ ↦ h.last j r hj) nofun
  · rw [h.processed, add_right_comm, add_assoc]
    exact congrArg (past + ·) (hcurrent.trans (add_zero _)).symm

/-- The worker takes the next event. -/
theorem take {k : ℕ} {rest : List ℕ}
    (hidle : shard.worker.index = none) (hqueue : shard.queue = k :: rest) {worker : WorkerPc}
    (hworker : worker.index = some k) :
    Line n (shards.set w { queue := rest, worker }) received (taken ++ [k]) dropped pushDropped
      past := by
  have hk : k ∈ shard.queue := hqueue ▸ mem_cons_self
  have hw := h.sharded w shard hshard k hk
  have hqueued : queued shards = {k} + queued (shards.set w { queue := rest, worker }) := by
    have hset := tally_set (fun shard : Shard ↦ (shard.queue : Multiset ℕ)) hshard { queue := rest, worker }
    rw [hqueue, ← Multiset.cons_coe, ← Multiset.singleton_add, ← add_assoc] at hset
    exact (add_right_cancel hset).symm.trans (add_comm _ _)
  have htaken (v : ℕ) : takenBy received n v (taken ++ [k]) =
      takenBy received n v taken ++ if v = w then [k] else [] := by
    rw [takenBy, filter_append]
    by_cases hv : v = w
    · simp [takenBy, hv, hw]
    · simp [takenBy, hv, hw, Ne.symm hv]
  have hsorted := h.sorted w shard hshard
  rw [hqueue] at hsorted
  have hcurrent := tally_set (fun shard : Shard ↦ (shard.worker.index.toList : Multiset ℕ)) hshard
    { queue := rest, worker }
  rw [hidle, hworker] at hcurrent
  refine ⟨h.pos, by rw [length_set, h.length], ?_, h.counted, ?_, ?_, ?_, ?_⟩
  · rw [← h.placed, hqueued, ← Multiset.coe_add, Multiset.coe_singleton]
    abel
  · exact forall_set (fun j r hj _ ↦ h.sharded j r hj)
      fun k' hk' ↦ h.sharded w shard hshard k' (hqueue ▸ mem_cons_of_mem _ hk')
  · refine forall_set (fun v r hv hne ↦ ?_) ?_
    · rw [htaken, if_neg hne, append_nil]
      exact h.sorted v r hv
    · rw [htaken, if_pos rfl, append_assoc]
      exact hsorted
  · refine forall_set (fun v r hv hne k' hk' ↦ ?_) fun k' hk' ↦ ?_
    · rw [htaken, if_neg hne, append_nil]
      exact h.last v r hv k' hk'
    · obtain rfl : k = k' := Option.some.inj (hworker.symm.trans hk')
      rw [htaken, if_pos rfl, getLast?_append]
      rfl
  · rw [← Multiset.coe_add, h.processed, add_assoc]
    exact congrArg (past + ·) ((add_zero _).symm.trans hcurrent).symm

end

/-- The events that were taken are of the same shards when another one is received. -/
theorem takenBy_received (p : PushPayload) (v : ℕ) :
    takenBy (received ++ [p]) n v taken = takenBy received n v taken :=
  filter_congr fun k hk ↦ by rw [shardAt_append (h.lt_of_mem_taken hk)]

/-- An event is received, and waits in its shard. -/
theorem enqueue {p : PushPayload} (hshard : shards[shardOf p.conversationId n]? = some shard) :
    Line n
      (shards.set (shardOf p.conversationId n) { shard with queue := shard.queue ++ [received.length] })
      (received ++ [p]) taken dropped pushDropped past := by
  have hqueued := tally_set (fun shard : Shard ↦ (shard.queue : Multiset ℕ)) hshard
    { shard with queue := shard.queue ++ [received.length] }
  rw [← Multiset.coe_add, add_comm (shard.queue : Multiset ℕ), ← add_assoc] at hqueued
  have hcurrent : current (shards.set (shardOf p.conversationId n)
      { shard with queue := shard.queue ++ [received.length] }) = current shards :=
    add_right_cancel (tally_set _ hshard _)
  refine ⟨h.pos, by rw [length_set, h.length], ?_, h.counted, ?_, ?_, ?_,
    by rw [hcurrent, h.processed]⟩
  · rw [queued, add_right_cancel hqueued, ← add_assoc, Multiset.coe_singleton]
    change (taken : Multiset ℕ) + dropped + queued shards + {received.length} = _
    rw [h.placed, length_append, length_singleton, Multiset.range_succ, add_comm,
      Multiset.singleton_add]
  · refine forall_set (fun v r hv _ k hk ↦ ?_) fun k hk ↦ ?_
    · rw [shardAt_append (h.lt_of_mem_queue hv hk)]
      exact h.sharded v r hv k hk
    · rcases mem_append.1 hk with hk | hk
      · rw [shardAt_append (h.lt_of_mem_queue hshard hk)]
        exact h.sharded _ shard hshard k hk
      · rw [mem_singleton.1 hk, shardAt, conversationAt_length]
  · refine forall_set (fun v r hv _ ↦ ?_) ?_
    · rw [h.takenBy_received]
      exact h.sorted v r hv
    · -- the new event is the last of all
      rw [h.takenBy_received, ← append_assoc]
      refine pairwise_append.2 ⟨h.sorted _ shard hshard, pairwise_singleton _ _, ?_⟩
      intro k hk k' hk'
      rw [mem_singleton.1 hk']
      rcases mem_append.1 hk with hk | hk
      · exact h.lt_of_mem_taken (mem_of_mem_filter hk)
      · exact h.lt_of_mem_queue hshard hk
  · refine forall_set (fun v r hv _ k hk ↦ ?_) fun k hk ↦ ?_
    · rw [h.takenBy_received]
      exact h.last v r hv k hk
    · rw [h.takenBy_received]
      exact h.last _ shard hshard k hk

/-- An event is received, and dropped. -/
theorem drop (p : PushPayload) :
    Line n shards (received ++ [p]) taken (dropped ++ [received.length]) (pushDropped + 1) past := by
  refine ⟨h.pos, h.length, ?_, by rw [h.counted, length_append]; rfl, fun v r hv k hk ↦ ?_,
    fun v r hv ↦ ?_, fun v r hv ↦ ?_, h.processed⟩
  · rw [← Multiset.coe_add, Multiset.coe_singleton, ← add_assoc, add_right_comm, h.placed,
      length_append, length_singleton, Multiset.range_succ, add_comm, Multiset.singleton_add]
  · rw [shardAt_append (h.lt_of_mem_queue hv hk)]
    exact h.sharded v r hv k hk
  · rw [h.takenBy_received]
    exact h.sorted v r hv
  · rw [h.takenBy_received]
    exact h.last v r hv

/-- The workers note that a connection has left. -/
theorem left (j : ℕ) :
    Line n (shards.map fun shard ↦ { shard with worker := shard.worker.left j }) received taken dropped
      pushDropped past := by
  have hold {v : ℕ} {r : Shard}
      (hv : (shards.map fun shard ↦ { shard with worker := shard.worker.left j })[v]? = some r) :
      ∃ shard, shards[v]? = some shard ∧ r.queue = shard.queue ∧ r.worker.index = shard.worker.index := by
    rw [getElem?_map] at hv
    obtain ⟨shard, hshard, rfl⟩ := Option.map_eq_some_iff.1 hv
    exact ⟨shard, hshard, rfl, WorkerPc.index_left j _⟩
  refine ⟨h.pos, by rw [length_map, h.length], ?_, h.counted, fun v r hv ↦ ?_, fun v r hv ↦ ?_,
    fun v r hv ↦ ?_, ?_⟩
  · rw [queued, tally, map_map]
    exact h.placed
  · obtain ⟨shard, hshard, hqueue, -⟩ := hold hv
    exact hqueue ▸ h.sharded v shard hshard
  · obtain ⟨shard, hshard, hqueue, -⟩ := hold hv
    exact hqueue ▸ h.sorted v shard hshard
  · obtain ⟨shard, hshard, -, hindex⟩ := hold hv
    exact hindex ▸ h.last v shard hshard
  · simp only [current, tally, map_map, Function.comp_def, WorkerPc.index_left]
    exact h.processed

end Line

namespace PushState

variable {n capacity queueSize : ℕ} {s s' : PushState}

/-- **Every move keeps the events in line.** -/
theorem Lined.move (h : s.Lined n) (hmove : PushMove capacity queueSize s s') : s'.Lined n := by
  cases hmove with
  | receive p =>
    have hlt : shardOf p.conversationId n < s.shards.length := h.length.symm ▸ shardOf_lt _ h.pos
    have hshard := getElem?_eq_getElem hlt
    simp only [receive, h.length, hshard]
    split
    · exact Line.enqueue h hshard
    · exact Line.drop h p
  | take hshard hworker hqueue => exact Line.take h hshard (hworker ▸ rfl) hqueue rfl
  | goto hshard hgoes => exact Line.goto h hshard hgoes.index_eq
  | @giveUp w shard hshard =>
    have hidle := Line.idle h hshard
    rw [add_assoc, Multiset.coe_add] at hidle
    exact hidle
  | @finish w shard job hshard hends =>
    have hidle := Line.idle h hshard
    rw [hends.index_eq, add_right_comm, Option.toList_some, Multiset.coe_add] at hidle
    rw [Lined, finish, map_append]
    exact hidle
  | push hshard hworker hpush =>
    obtain ⟨o', s₁, hstep, hcases⟩ := push_eq_some hpush
    obtain ⟨peer, sender, budget, -, -, rfl⟩ := stepOp_eq_some hstep
    rcases hcases with ⟨f, -, rfl⟩ | ⟨-, ⟨-, rfl⟩ | ⟨-, -, -, rfl⟩ | rfl⟩ <;>
      exact Line.goto h hshard (hworker ▸ rfl)
  | closed hshard hworker => exact Line.goto h hshard (hworker ▸ rfl)
  | connect | client | call => exact h
  | @unregister j => exact Line.left h j
  | op hstep =>
    obtain ⟨peer, sender, budget, -, -, rfl⟩ := stepOp_eq_some hstep
    exact h

theorem lined_pushInit (limits : Limits) (limit : Int) (workers : ℕ) :
    (pushInit limits limit workers).Lined (max workers 1) := by
  have hinit (w : ℕ) (shard : Shard) (hshard : (replicate (max workers 1) ({} : Shard))[w]? = some shard) :
      shard = {} := eq_of_mem_replicate (mem_of_getElem? hshard)
  refine ⟨by omega, by simp [pushInit], ?_, rfl, fun w shard hw k hk ↦ ?_, fun w shard hw ↦ ?_,
    fun w shard hw k hk ↦ ?_, ?_⟩
  · simp [pushInit, queued, tally]
  · rw [hinit w shard hw] at hk
    cases hk
  · rw [hinit w shard hw]
    exact List.Pairwise.nil
  · rw [hinit w shard hw] at hk
    cases hk
  · simp [pushInit, current, tally, WorkerPc.index]

end PushState

end Nexo.Gateway
