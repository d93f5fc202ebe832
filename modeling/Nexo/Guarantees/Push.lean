import Nexo.Gateway.PushJobs

/-!
# No push is lost in silence

One invariant holds in every state of a node that delivers (`PushState.Delivers`): the events are in
line, the connections and the registry fit together, the logs are in order, every worker knows what
it needs to know, and every processed event has reached whom it was for. A step of a worker adds at
most one entry, about its own event, to one log (`Delivers.serve`); no other worker is at this
event, and no report is about it, so what they rely on is kept.
-/

namespace Nexo.Gateway

open Machine List

/-- Two workers are at different events. -/
theorem Line.index_ne {n : ℕ} {shards : List Shard} {received : List PushPayload}
    {taken dropped : List ℕ} {pushDropped : ℕ} {past : Multiset ℕ}
    (h : Line n shards received taken dropped pushDropped past) {v w : ℕ} {r shard : Shard}
    (hr : shards[v]? = some r) (hshard : shards[w]? = some shard) (hne : v ≠ w) {k k' : ℕ}
    (hk : k ∈ r.worker.index) (hk' : k' ∈ shard.worker.index) : k ≠ k' := by
  rintro rfl
  have hv := of_decide_eq_true (mem_filter.1 (h.mem_takenBy hr hk)).2
  have hw := of_decide_eq_true (mem_filter.1 (h.mem_takenBy hshard hk')).2
  exact hne (hv.symm.trans hw)

namespace PushState

variable {capacity queueSize n : ℕ} {s s' : PushState}

/-- **The invariant.** -/
structure Delivers (capacity n : ℕ) (s : PushState) : Prop where
  lined : s.Lined n
  connected : s.Connected capacity
  logs : ∀ (j : ℕ) (peer : Peer), s.peers[j]? = some peer → Logged n s.received s.taken peer.log
  workers : ∀ (w : ℕ) (shard : Shard), s.shards[w]? = some shard → s.WorkerOk shard.worker
  reports : ∀ job ∈ s.reports, s.Reported job
  order : (s.reports.map (·.index)).Pairwise (Earlier s.received n)

/-- A received event changes no worker. -/
theorem receive_eq (queueSize : ℕ) (s : PushState) (p : PushPayload) :
    ∃ shards pushDropped dropped,
      s.receive queueSize p =
        { s with received := s.received ++ [p], shards, pushDropped, dropped } ∧
      ∀ (w : ℕ) (shard : Shard), shards[w]? = some shard →
        ∃ shard₀, s.shards[w]? = some shard₀ ∧ shard.worker = shard₀.worker := by
  simp only [receive]
  split
  · exact ⟨s.shards, s.pushDropped, s.dropped, rfl, fun w shard hw ↦ ⟨shard, hw, rfl⟩⟩
  next shard hshard =>
    split
    · refine ⟨_, s.pushDropped, s.dropped, rfl, ?_⟩
      exact forall_set (fun w r hw _ ↦ ⟨r, hw, rfl⟩) ⟨shard, hshard, rfl⟩
    · exact ⟨s.shards, _, _, rfl, fun w shard hw ↦ ⟨shard, hw, rfl⟩⟩

/-- The workers are at events that were received, and so are the reports. -/
structure Genuine (s : PushState) : Prop where
  workers : ∀ (w : ℕ) (shard : Shard), s.shards[w]? = some shard → shard.worker.Genuine s.received
  reports : ∀ job ∈ s.reports, job.Genuine s.received

theorem Genuine.goto (h : s.Genuine) (w : ℕ) (shard : Shard) {worker : WorkerPc}
    (hworker : worker.Genuine s.received) : (s.goto w shard worker).Genuine :=
  ⟨forall_set (fun v r hv _ ↦ h.workers v r hv) hworker, h.reports⟩

theorem Genuine.move (h : s.Genuine) (hmove : PushMove capacity queueSize s s') : s'.Genuine := by
  cases hmove with
  | receive p =>
    obtain ⟨shards, pushDropped, dropped, heq, hworkers⟩ := receive_eq queueSize s p
    rw [heq]
    refine ⟨fun w shard hw ↦ ?_, fun job hjob ↦ (h.reports job hjob).imp_left (·.receive p)⟩
    obtain ⟨shard₀, hshard₀, hworker⟩ := hworkers w shard hw
    exact hworker ▸ (h.workers w shard₀ hshard₀).receive p
  | take => exact ⟨forall_set (fun v r hv _ ↦ h.workers v r hv) trivial, h.reports⟩
  | goto hshard hgoes => exact h.goto _ _ (hgoes.genuine (h.workers _ _ hshard))
  | giveUp => exact ⟨forall_set (fun v r hv _ ↦ h.workers v r hv) trivial, h.reports⟩
  | finish hshard hends =>
    refine ⟨forall_set (fun v r hv _ ↦ h.workers v r hv) trivial, fun job' hjob' ↦ ?_⟩
    rcases mem_append.1 hjob' with hold | hnew
    · exact h.reports job' hold
    · exact mem_singleton.1 hnew ▸ hends.genuine (h.workers _ _ hshard)
  | @push w shard job targets conns o handoff s' hshard hworker hpush =>
    have hjob := h.workers w shard hshard
    rw [hworker] at hjob
    obtain ⟨o', s₁, hstep, hcases⟩ := push_eq_some hpush
    obtain ⟨peer, sender, budget, -, -, rfl⟩ := stepOp_eq_some hstep
    rcases hcases with ⟨f, -, rfl⟩ | ⟨-, ⟨-, rfl⟩ | ⟨-, -, -, rfl⟩ | rfl⟩ <;>
      exact ⟨forall_set (fun v r hv _ ↦ h.workers v r hv) hjob, h.reports⟩
  | closed hshard hworker =>
    have hjob := h.workers _ _ hshard
    rw [hworker] at hjob
    exact ⟨forall_set (fun v r hv _ ↦ h.workers v r hv) hjob, h.reports⟩
  | connect | client | call => exact ⟨h.workers, h.reports⟩
  | @unregister j =>
    refine ⟨fun w shard hw ↦ ?_, h.reports⟩
    rw [getElem?_map] at hw
    obtain ⟨shard₀, hshard₀, rfl⟩ := Option.map_eq_some_iff.1 hw
    exact (h.workers w shard₀ hshard₀).left j
  | op hstep =>
    obtain ⟨peer, sender, budget, -, -, rfl⟩ := stepOp_eq_some hstep
    exact ⟨h.workers, h.reports⟩

namespace Delivers

/-- The events that are over. -/
theorem mem_over {job : Job} (hjob : job ∈ s.reports) :
    job.index ∈ ((s.reports.map (·.index) : Multiset ℕ) + s.failed) :=
  Multiset.mem_add.2 (.inl (mem_map_of_mem hjob))

section

variable (h : s.Delivers capacity n) {shard : Shard} {w : ℕ} {budget : Budget}
include h

theorem lt_of_mem_reports {k : ℕ} (hk : k ∈ s.reports.map (·.index)) :
    k < s.received.length := by
  refine h.lined.lt_of_mem_taken (Multiset.mem_coe.1 ?_)
  rw [h.lined.processed]
  exact Multiset.mem_add.2 (.inl (Multiset.mem_add.2 (.inl hk)))

/-- Of the events that are over, those of a worker's shard came before its own. -/
theorem earlier_of_mem_over (hshard : s.shards[w]? = some shard) {k k' : ℕ}
    (hk : shard.worker.index = some k) (hk' : k' ∈ s.reports.map (·.index)) :
    Earlier s.received n k' k := by
  intro heq
  have hover : k' ∈ ((s.reports.map (·.index) : Multiset ℕ) + s.failed) :=
    Multiset.mem_add.2 (.inl hk')
  have hw := of_decide_eq_true (mem_filter.1 (h.lined.mem_takenBy hshard hk)).2
  have htaken : k' ∈ s.taken := by
    rw [← Multiset.mem_coe, h.lined.processed]
    exact Multiset.mem_add.2 (.inl hover)
  refine lt_of_le_of_ne (h.lined.le_of_mem_takenBy hshard hk
    (mem_filter.2 ⟨htaken, decide_eq_true (heq.trans hw)⟩)) ?_
  rintro rfl
  exact h.lined.notMem_over hshard hk hover

/-- The worker goes on, with nothing else changed. -/
theorem goto (hshard : s.shards[w]? = some shard) {worker : WorkerPc}
    (hindex : worker.index = shard.worker.index) (hworker : s.WorkerOk worker) :
    (s.goto w shard worker).Delivers capacity n where
  lined := h.lined.goto hshard hindex
  connected := h.connected.of_eq rfl rfl
  logs := h.logs
  workers := forall_set
    (fun v r hv _ ↦ (h.workers v r hv).same (fun _ _ ↦ .of_eq rfl) fun _ _ hj ↦ hj)
    (hworker.same (fun _ _ ↦ .of_eq rfl) fun _ _ hj ↦ hj)
  reports job hjob := (h.reports job hjob).keeps (.of_eq rfl)
  order := h.order

/-- **A worker serves a connection**: one log may get an entry about its event. -/
theorem serve (hshard : s.shards[w]? = some shard) {k : ℕ} (hk : shard.worker.index = some k)
    {peers : List Peer} {worker : WorkerPc} (hindex : worker.index = some k)
    (hkeeps : ∀ k' ≠ k, Keeps k' s { s with budget, peers })
    (hconn : Connected capacity { s with budget, peers })
    (hlogs : ∀ (j : ℕ) (peer : Peer), peers[j]? = some peer → Logged n s.received s.taken peer.log)
    (hworker : WorkerOk { s with budget, peers } worker) :
    Delivers capacity n (PushState.goto { s with budget, peers } w shard worker) where
  lined := Line.goto h.lined hshard (hindex.trans hk.symm)
  connected := hconn.of_eq rfl rfl
  logs := hlogs
  workers := by
    refine forall_set (fun v r hv hne ↦ ?_) (hworker.same (fun _ _ ↦ .of_eq rfl) fun _ _ hj ↦ hj)
    refine (h.workers v r hv).same (fun k' hk' ↦ ?_) fun _ _ hj ↦ hj
    have hkeep := hkeeps k' (h.lined.index_ne hv hshard hne hk' hk)
    exact ⟨⟨hkeep.length, hkeep.connId, hkeep.userId, hkeep.closing⟩, hkeep.entries⟩
  reports job hjob := by
    have hkeep := hkeeps job.index fun heq ↦ h.lined.notMem_over hshard hk (heq ▸ mem_over hjob)
    exact (h.reports job hjob).keeps
      ⟨⟨hkeep.length, hkeep.connId, hkeep.userId, hkeep.closing⟩, hkeep.entries⟩
  order := h.order

/-- The log of the connection that a worker serves. -/
theorem logged_entry (hshard : s.shards[w]? = some shard) {k : ℕ} (hk : shard.worker.index = some k)
    {j : ℕ} {peer : Peer} (hpeer : s.peers[j]? = some peer) (hnone : s.entries j k = 0)
    {e : LogEntry} (he : ∀ k', e.about k' = true → k' = k) :
    Logged n s.received s.taken (peer.log ++ [e]) := by
  have htakenBy := h.lined.mem_takenBy hshard hk
  refine (h.logs j peer hpeer).entry he (mem_of_mem_filter htakenBy) (fun k' hk' hshardAt ↦ ?_)
    (entries_eq hpeer k ▸ hnone)
  have hw := of_decide_eq_true (mem_filter.1 htakenBy).2
  exact h.lined.le_of_mem_takenBy hshard hk (mem_filter.2 ⟨hk', decide_eq_true (hshardAt.trans hw)⟩)

/-- Another goroutine, or the connection itself, changes a connection. -/
theorem change {j : ℕ} {peer peer' : Peer} (hpeer : s.peers[j]? = some peer) {ops : List Op}
    (hid : peer'.id = peer.id) (hslot : peer'.slot = peer.slot)
    (hclosing : peer.sender.closing = true → peer'.sender.closing = true) (hok : peer'.Ok capacity)
    (hlog : ∀ k, peer'.log.countP (·.about k) = peer.log.countP (·.about k))
    (hlogged : Logged n s.received s.taken peer'.log) :
    Delivers capacity n { s with budget, ops, peers := s.peers.set j peer' } := by
  have hkeeps (k : ℕ) : Keeps k s { s with budget, ops, peers := s.peers.set j peer' } :=
    .set hpeer rfl hid hslot hclosing (hlog k)
  exact {
    lined := h.lined
    connected := h.connected.set hpeer rfl rfl hslot hok
    logs := forall_set (fun i r hi _ ↦ h.logs i r hi) hlogged
    workers := fun w shard hw ↦ (h.workers w shard hw).same (fun k _ ↦ hkeeps k) fun _ _ hj ↦ hj
    reports := fun job hjob ↦ (h.reports job hjob).keeps (hkeeps _)
    order := h.order }

/-- **A connection is dealt with**: the frame 2001, the frame 2004 or the refusal is logged, and the
worker goes on to the next one. -/
theorem deliver {job : Job} {targets : List String} {conns : List ℕ} {j : ℕ} {peer : Peer}
    {sender : Sender} {e : LogEntry} (hshard : s.shards[w]? = some shard)
    (hindex : shard.worker.index = some job.index)
    (htask : s.TaskOk (job.task targets (j :: conns))) (hcovers : s.Covers job targets)
    (hne : s.connId j ≠ job.event.senderConnId) (hpeer : s.peers[j]? = some peer)
    (he : ∀ k, e.about k = decide (job.index = k))
    (hclosing : peer.sender.closing = true → sender.closing = true)
    (hok : Peer.Ok capacity { peer with sender, log := peer.log ++ [e] }) :
    Delivers capacity n
      (PushState.goto { s with budget, peers := s.peers.set j { peer with sender, log := peer.log ++ [e] } }
        w shard (.fanning job targets conns)) := by
  have hnone : s.entries j job.index = 0 :=
    (htask.entries j).trans (if_neg fun hc ↦ hc.2.1 mem_cons_self)
  have hlogged := h.logged_entry hshard hindex hpeer hnone fun k hk ↦
    (of_decide_eq_true ((he k).symm.trans hk)).symm
  have hknows : Knows s
      { s with budget, peers := s.peers.set j { peer with sender, log := peer.log ++ [e] } } :=
    .set hpeer rfl rfl rfl hclosing
  have hcount (k : ℕ) : (peer.log ++ [e]).countP (·.about k) =
      peer.log.countP (·.about k) + if job.index = k then 1 else 0 := by
    simp only [countP_append, countP_singleton, he, decide_eq_true_eq]
  refine h.serve hshard hindex rfl (fun k hk ↦ ?_) (h.connected.set hpeer rfl rfl rfl hok)
    (forall_set (fun i r hi _ ↦ h.logs i r hi) hlogged)
    ⟨htask.deliver rfl hne hknows hpeer rfl rfl ?_, ?_⟩
  · exact .set hpeer rfl rfl rfl hclosing ((hcount k).trans (congrArg _ (if_neg (Ne.symm hk))))
  · exact (hcount job.index).trans (congrArg _ (if_pos rfl))
  · exact hcovers.knows hknows (List.Subset.refl _) htask.knownSteady

/-- **A worker in `Client.Push`.** -/
theorem push {job : Job} {targets : List String} {conns : List ℕ} {o : Op} {handoff : Bool}
    (hshard : s.shards[w]? = some shard) (hworker : shard.worker = .pushing job targets conns o)
    (hpush : s.push capacity w shard job targets conns o handoff = some s') :
    s'.Delivers capacity n := by
  obtain ⟨o', s₁, hstep, hcases⟩ := push_eq_some hpush
  obtain ⟨peer, sender, budget, hpeer, hop, rfl⟩ := stepOp_eq_some hstep
  have hindex : shard.worker.index = some job.index := hworker ▸ rfl
  have hpc := h.workers w shard hshard
  rw [hworker] at hpc
  obtain ⟨htask, hcovers, hne, hfits⟩ := hpc
  obtain ⟨hclient, hclosing, -, -⟩ := Op.next_eq_some hop
  have hok := (h.connected.peers _ peer hpeer).op hop (kindOf job.index o.call)
  obtain ⟨hfits', hrefused⟩ := (hfits.mono fun ⟨peer₁, hpeer₁, hc⟩ ↦
    Option.some.inj (hpeer.symm.trans hpeer₁) ▸ hc).next hop
  have hmono : peer.sender.closing = true → sender.closing = true := hclosing.trans
  rcases hcases with ⟨f, hsent, rfl⟩ | ⟨hsent, hcases⟩
  · -- the frame is in the queue
    rw [hsent] at hok ⊢
    exact h.deliver hshard hindex htask hcovers hne hpeer (fun k ↦ about_kindOf k _ _ _) hmono hok
  rw [hsent, Option.map_none, Option.toList_none, append_nil] at hok hcases
  have hself : (s.peers.set o.client { peer with sender })[o.client]? = some { peer with sender } :=
    List.getElem?_set_self (List.getElem?_eq_some_iff.1 hpeer).1
  have hkeeps (k : ℕ) : Keeps k s { s with budget, peers := s.peers.set o.client { peer with sender } } :=
    .set hpeer rfl rfl rfl hmono rfl
  obtain ⟨htask₁, hcovers₁, hne₁, -⟩ : WorkerOk
      { s with budget, peers := s.peers.set o.client { peer with sender } }
      (.pushing job targets conns o) :=
    WorkerOk.same ⟨htask, hcovers, hne, hfits⟩ (fun k _ ↦ hkeeps k) fun _ _ hj ↦ hj
  have hserve {worker : WorkerPc} (hw : worker.index = some job.index)
      (hpc : WorkerOk { s with budget, peers := s.peers.set o.client { peer with sender } } worker) :=
    h.serve hshard hindex hw (fun k _ ↦ hkeeps k) (h.connected.set hpeer rfl rfl rfl hok)
      (forall_set (fun i r hi _ ↦ h.logs i r hi) (h.logs _ peer hpeer)) hpc
  rcases hcases with ⟨-, rfl⟩ | ⟨hnq, hns, hpc', rfl⟩ | rfl
  · -- the queue was full: `Close` is next
    exact hserve rfl ⟨htask₁, hcovers₁, hne₁⟩
  · -- the connection was closing
    have hdone : Delivers capacity n (PushState.goto
        { s with
          budget
          peers := s.peers.set o.client { peer with sender, log := peer.log ++ [.refused job.index] } }
        w shard (.fanning job targets conns)) :=
      h.deliver hshard hindex htask hcovers hne hpeer (fun k ↦ rfl) hmono
        (hok.refuse (hmono (hrefused hpc' hnq hns)) job.index)
    rw [note_eq hself, set_set]
    exact hdone
  · refine hserve rfl ⟨?_, hcovers₁, ?_, hfits'.mono fun hc ↦ ?_⟩
    · rw [hclient]
      exact htask₁
    · rw [hclient]
      exact hne₁
    · rw [hclient]
      exact ⟨_, hself, hc⟩

/-- **Every move keeps the invariant.** -/
theorem move (hmove : PushMove capacity queueSize s s') :
    s'.Delivers capacity n := by
  have hlined := h.lined.move hmove
  cases hmove with
  | receive p =>
    obtain ⟨shards, pushDropped, dropped, heq, hworkers⟩ := receive_eq queueSize s p
    rw [heq] at hlined ⊢
    refine ⟨hlined, h.connected.of_eq rfl rfl, fun j peer hpeer ↦ ?_, fun w shard hw ↦ ?_,
      fun job hjob ↦ (h.reports job hjob).keeps (.of_eq rfl), ?_⟩
    · exact (h.logs j peer hpeer).receive (fun k hk ↦ h.lined.lt_of_mem_taken hk) p
    · obtain ⟨shard₀, hshard₀, hworker⟩ := hworkers w shard hw
      exact hworker ▸ (h.workers w shard₀ hshard₀).same (fun _ _ ↦ .of_eq rfl) fun _ _ hj ↦ hj
    · refine h.order.imp_of_mem fun {k k'} hk hk' hearlier ↦ ?_
      rw [Earlier, shardAt_append (h.lt_of_mem_reports hk), shardAt_append (h.lt_of_mem_reports hk')]
      exact hearlier
  | @take w shard index rest hshard hworker hqueue =>
    -- a fresh event is in no log yet
    have hfresh : index ∉ s.taken := by
      have hsorted := (pairwise_append.1 (h.lined.sorted w shard hshard)).2.2
      have hw := h.lined.sharded w shard hshard index (hqueue ▸ mem_cons_self)
      intro hmem
      exact lt_irrefl _ (hsorted index (mem_filter.2 ⟨hmem, decide_eq_true hw⟩) index
        (hqueue ▸ mem_cons_self))
    refine ⟨hlined, h.connected.of_eq rfl rfl, fun j peer hpeer ↦ (h.logs j peer hpeer).take index, ?_,
      fun job hjob ↦ (h.reports job hjob).keeps (.of_eq rfl), h.order⟩
    refine forall_set
      (fun v r hv _ ↦ (h.workers v r hv).same (fun _ _ ↦ .of_eq rfl) fun _ _ hj ↦ hj)
      ⟨fun j hj ↦ ?_, fun j hj ↦ ?_, fun j hj ↦ absurd hj not_mem_nil, fun j ↦ ?_, nodup_nil,
        fun j hj ↦ absurd hj not_mem_nil, nodup_nil,
        fun j hj ↦ absurd hj not_mem_nil⟩
    · obtain ⟨u, hu⟩ := UserMap.mem_close.1 hj
      have howner : s.userId j = u := (h.connected.owner u j hu).2
      exact .inr (howner.symm ▸ hu)
    · obtain ⟨u, hu⟩ := UserMap.mem_close.1 hj
      exact (h.connected.owner u j hu).1
    · rw [if_neg fun hc ↦ absurd hc.1 not_mem_nil]
      cases hpeer : s.peers[j]? with
      | none => simp [PushState.entries, hpeer]
      | some peer => exact (entries_eq hpeer index).trans ((h.logs j peer hpeer).countP_eq_zero hfresh)
  | @goto w shard worker hshard hgoes =>
    exact h.goto hshard hgoes.index_eq ((h.workers w shard hshard).goes h.connected hgoes)
  | @giveUp w shard hshard =>
    refine ⟨hlined, h.connected.of_eq rfl rfl, h.logs, ?_,
      fun job hjob ↦ (h.reports job hjob).keeps (.of_eq rfl), h.order⟩
    exact forall_set (fun v r hv _ ↦ (h.workers v r hv).same (fun _ _ ↦ .of_eq rfl) fun _ _ hj ↦ hj) trivial
  | @finish w shard job hshard hends =>
    refine ⟨hlined, h.connected.of_eq rfl rfl, h.logs, ?_, fun job' hjob' ↦ ?_, ?_⟩
    · exact forall_set (fun v r hv _ ↦ (h.workers v r hv).same (fun _ _ ↦ .of_eq rfl) fun _ _ hj ↦ hj)
        trivial
    · rcases mem_append.1 hjob' with hold | hnew
      · exact (h.reports job' hold).keeps (.of_eq rfl)
      · rw [mem_singleton.1 hnew]
        exact ((h.workers w shard hshard).ends hends).keeps (.of_eq rfl)
    · change ((s.reports ++ [job]).map (·.index)).Pairwise (Earlier s.received n)
      rw [map_append]
      refine pairwise_append.2 ⟨h.order, pairwise_singleton _ _, fun k hk k' hk' ↦ ?_⟩
      rw [mem_singleton.1 hk']
      exact h.earlier_of_mem_over hshard hends.index_eq hk
  | push hshard hworker hpush => exact h.push hshard hworker hpush
  | @closed w shard job targets conns j peer hshard hworker hpeer hgone =>
    have hpc := h.workers w shard hshard
    rw [hworker] at hpc
    have hok := h.connected.peers j peer hpeer
    rw [note_eq hpeer]
    exact h.deliver hshard (hworker ▸ rfl) hpc.1 hpc.2.1 hpc.2.2 hpeer (fun k ↦ rfl) id
      (hok.refuse (hok.gone hgone) job.index)
  | @connect id slot users users' hreserve hadopt =>
    obtain ⟨hstay, hconn⟩ := h.connected.connect id hreserve hadopt
    have hkeeps (k : ℕ) : Keeps k s { s with users := users', peers := s.peers ++ [{ id, slot }] } :=
      .append rfl rfl
    exact {
      lined := hlined
      connected := hconn
      logs := forall_append h.logs ⟨fun e he ↦ absurd he not_mem_nil, List.Pairwise.nil⟩
      workers := fun w shard hw ↦ (h.workers w shard hw).same (fun k _ ↦ hkeeps k) hstay
      reports := fun job hjob ↦ (h.reports job hjob).keeps (hkeeps _)
      order := h.order }
  | @client j m peer sender budget hpeer hnext =>
    exact h.change hpeer rfl rfl (Sender.next_eq_some hnext).2.1
      ((h.connected.peers j peer hpeer).move hnext) (fun _ ↦ rfl) (h.logs j peer hpeer)
  | @unregister j peer hpeer hclosed =>
    obtain ⟨hstay, hconn⟩ := h.connected.unregister hpeer hclosed
      (s.shards.map fun shard ↦ { shard with worker := shard.worker.left j })
    have hkeeps (k : ℕ) : Keeps k s { s with
        users := s.users.unregister j peer.slot
        peers := s.peers.set j { peer with gone := true }
        shards := s.shards.map fun shard ↦ { shard with worker := shard.worker.left j } } :=
      .set hpeer rfl rfl rfl id rfl
    refine ⟨hlined, hconn, forall_set (fun i r hi _ ↦ h.logs i r hi) (h.logs j peer hpeer),
      fun w shard hw ↦ ?_, fun job hjob ↦ (h.reports job hjob).keeps (hkeeps _), h.order⟩
    rw [getElem?_map] at hw
    obtain ⟨shard₀, hshard₀, rfl⟩ := Option.map_eq_some_iff.1 hw
    change WorkerOk _ (WorkerPc.left j shard₀.worker)
    rw [WorkerPc.left_eq]
    refine (h.workers w shard₀ hshard₀).keeps (fun k _ ↦ hkeeps k)
      (fun _ _ ↦ filter_sublist.subset) fun reached steady i hi ↦ ?_
    rcases of_decide_eq_true (mem_filter.1 hi).2 with hne | hreached
    · exact .inr fun u hu ↦ hstay u i hu hne
    · exact .inl hreached
  | call o =>
    exact ⟨hlined, h.connected.of_eq rfl rfl, h.logs,
      fun w shard hw ↦ (h.workers w shard hw).same (fun _ _ ↦ .of_eq rfl) fun _ _ hj ↦ hj,
      fun job hjob ↦ (h.reports job hjob).keeps (.of_eq rfl), h.order⟩
  | op hstep =>
    obtain ⟨peer, sender, budget, hpeer, hop, rfl⟩ := stepOp_eq_some hstep
    have hlog := h.logs _ peer hpeer
    refine h.change hpeer rfl rfl (Op.next_eq_some hop).2.1.trans
      ((h.connected.peers _ peer hpeer).op hop .other) (fun k ↦ ?_) (hlog.other _)
    rw [countP_append]
    cases Op.sent _ _ <;> rfl

end

theorem init (limits : Limits) (limit : Int) (workers : ℕ) :
    (pushInit limits limit workers).Delivers capacity (max workers 1) where
  lined := lined_pushInit limits limit workers
  connected := ⟨nofun, nofun, fun u ↦ nodup_nil⟩
  logs j peer hpeer := (nomatch hpeer)
  workers w shard hw := by
    rw [eq_of_mem_replicate (mem_of_getElem? hw)]
    trivial
  reports job hjob := (nomatch hjob)
  order := List.Pairwise.nil

end Delivers

/-- What became of an event at a connection. -/
inductive Outcome (peer : Peer) (index : ℕ) : LogEntry → Prop
  /-- its frame 2001 was put into the queue -/
  | pushed (f : Charge) : Outcome peer index (.frame f (.push index))
  /-- a frame 2004 was put into the queue instead -/
  | resync (f : Charge) : Outcome peer index (.frame f (.resync index))
  /-- the connection is closed -/
  | closed (h : peer.sender.closing = true) : Outcome peer index (.refused index)

/-- The events in the place where they are. -/
theorem Delivers.placed (h : s.Delivers capacity n) :
    (s.reports.map (·.index) : Multiset ℕ) + s.failed + current s.shards + s.dropped +
      queued s.shards = Multiset.range s.received.length := by
  rw [← h.lined.placed, h.lined.processed]

end PushState

namespace PushDemo

/-- The row of `b` covers every sequence number. -/
def row : UserConversation := { ownerId := "b", conversationId := "c", type := 1, updatedAt := 0 }

def db : Db := { Db.empty .empty with userConversations := ⟨[row], by decide⟩ }

def message : Dto.Message where
  serverMsgId := "m"
  clientMsgId := "1"
  conversationId := "c"
  seq := 1
  sessionType := conversationSingle
  senderId := "a"
  recvId := "b"
  groupId := ""
  contentType := 1
  content := ""
  sendTime := 0

/-- A message of `a` to `b`. -/
def payload : PushPayload :=
  { conversationId := "c", seq := 1, sessionType := conversationSingle, senderId := "a",
    senderConnId := "1", recvId := "b", groupId := "", msg := some message }

/-- Of two events the second finds the shard full; the first goes to the connection of `b`. -/
def run : List PushEventLabel :=
  [.connect "2" ⟨"b", "", ""⟩, .receive payload, .receive payload, .take 0, .resolve 0 db,
    .recipients 0 fun _ ↦ [], .online 0, .visibleTo 0 db, .fan 0 10 5, .fan 0 10 5, .push 0 false,
    .push 0 false, .fan 0 10 5]

/-- What is looked at in the end. -/
def observe (s : PushState) : List (ℕ × List ℕ × Bool) × List ℕ × String × String :=
  (s.reports.map fun job ↦ (job.index, job.steady,
      job.event.senderConnId = "1" && "b" ∈ job.roster && job.event.conversationId = "c" &&
        (job.db.map fun d ↦ d.visibleOwners "c" ["b"] job.event.message.seq) = some ["b"]),
    s.dropped, s.connId 0, s.userId 0)

end PushDemo

end Nexo.Gateway
