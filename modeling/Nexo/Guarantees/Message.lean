import Nexo.System.Runs

/-!
# What holds of messages

For every interleaving of every set of calls, with failures anywhere:

* the sequence numbers of a conversation are exactly `1..max_seq`, and only a committed message
  consumes one (`gapless`);
* the calls that share an idempotency key store at most one message between them, acknowledge and
  publish that message and no other, and change nothing else (`idempotent`).

Both follow from the invariant of the ledger and from the list of what a send may have done
(`SendRun`).
-/

namespace Nexo

open Relational Message Errcode List

variable {cfg : Config} {users : Table User String User.keys} {pid : ℕ} {H : History cfg users}
  {m : Message} {inp : SendInput}

/-! ### Who stored a message -/

/-- The sequence numbers of the stored messages of a conversation. -/
def Db.seqs (d : Db) (c : String) : List Int :=
  (d.messages.rows.filter fun m ↦ m.conversationId = c).map (·.seq)

/-- The process stored the message: it is there after its commit, and was not before. -/
def StoredBy (H : History cfg users) (pid : ℕ) (m : Message) : Prop :=
  ∃ d H₀, ⟨some pid, .commit, d⟩ :: H₀ <:+ H ∧ m ∉ (Trace.db H₀).messages.rows ∧
    m ∈ d.messages.rows

/-- The process returned this. -/
def Returned (H : History cfg users) (pid : ℕ) (v : Response) : Prop :=
  .returned v ∈ marks pid H

/-- Nothing the process did changed the tables. -/
def LeftTables (H : History cfg users) (pid : ℕ) : Prop :=
  ∀ e H₀, e :: H₀ <:+ H → e.who = some pid → e.db = Trace.db H₀

theorem mem_rows_iff {d : Db} :
    m ∈ d.messages.rows ↔ d.messages.get (.seq m.conversationId m.seq) = some m := by
  rw [Table.get_eq_some_iff]
  simp [Message.keys]

theorem storedFor_iff {d : Db} :
    StoredFor d inp m ↔ m ∈ d.messages.rows ∧ m.conversationId = inp.conversation ∧
      m.senderId = inp.senderId ∧ m.clientMsgId = inp.clientMsgId := by
  rw [StoredFor, Table.get_eq_some_iff]
  simp [Message.keys, eq_comm]

theorem Committed.storedBy (h : Committed H pid (.send inp m)) :
    StoredBy H pid m := by
  obtain ⟨d, H₀, hs, hchange⟩ := h
  exact ⟨d, H₀, hs, hchange.stores⟩

theorem StoredBy.mono {H' : History cfg users} (h : StoredBy H pid m) (hs : H <:+ H') :
    StoredBy H' pid m := by
  obtain ⟨d, H₀, hs₀, hm⟩ := h
  exact ⟨d, H₀, hs₀.trans hs, hm⟩

theorem StoredBy.commit_mem (h : StoredBy H pid m) : Mark.commit ∈ marks pid H := by
  obtain ⟨d, H₀, hs, -⟩ := h
  refine (marks_suffix hs).subset ?_
  rw [marks_cons_self]
  exact mem_cons_self

/-- A send that has committed stored the message of its key. -/
theorem storedBy_of_commit (hv : (spec cfg users).Valid H) (hstart : Started H pid (.send inp))
    (hc : Mark.commit ∈ marks pid H) :
    ∃ m, StoredBy H pid m ∧ StoredFor (Trace.db H) inp m := by
  obtain ⟨m, hm⟩ := (sendRun hv hstart).committed hc
  exact ⟨m, hm.storedBy, hm.stored hv⟩

theorem leftTables_of_marks {req : Request} (hv : (spec cfg users).Valid H)
    (hreq : req.isTransactional) (hstart : Started H pid req) (hmarks : Mark.commit ∉ marks pid H) :
    LeftTables H pid :=
  fun _ _ hs hwho ↦ unchanged_of_marks hv hreq hstart hmarks hs hwho

/-! ### Sequence numbers -/

theorem nodup_seqs (d : Db) (c : String) : (d.seqs c).Nodup := by
  refine List.Nodup.map_on ?_ ((d.messages.nodup_rows (by simp [Message.keys])).filter _)
  intro m hm m' hm' hseq
  obtain ⟨hm, hc⟩ := mem_filter.1 hm
  obtain ⟨hm', hc'⟩ := mem_filter.1 hm'
  simp only [decide_eq_true_eq] at hc hc'
  rw [mem_rows_iff, hc] at hm
  rw [mem_rows_iff, hc', ← hseq, hm] at hm'
  exact Option.some.inj hm'

theorem mem_seqs {d : Db} {c : String} {s : Int} :
    s ∈ d.seqs c ↔ (d.messages.get (.seq c s)).isSome := by
  rw [Db.seqs, mem_map, Option.isSome_iff_exists]
  refine exists_congr fun m ↦ ?_
  rw [mem_filter, Table.get_eq_some_iff]
  simp [Message.keys, and_assoc, eq_comm]

/-- **Gapless sequence allocation.** In every committed state of every run: the sequence numbers of
a conversation are exactly `1..max_seq`, each once; `max_seq` has never decreased; a send that
failed, or whose message another call had stored, has moved no counter; every view is bounded by the
counter; and no send reports a failed allocation, if server ids are fresh. -/
theorem gapless {w : World (system cfg users)} (h : Reachable (system cfg users) w) :
    (∀ c, (w.db.seqs c).Nodup ∧ ∀ s, s ∈ w.db.seqs c ↔ 1 ≤ s ∧ s ≤ w.db.maxSeq c) ∧
    (∀ (H H' : History cfg users) c, H <:+ H' → H' <:+ w.trace →
      (Trace.db H).maxSeq c ≤ (Trace.db H').maxSeq c) ∧
    (∀ pid inp, Started w.trace pid (.send inp) →
      (∃ err, Returned w.trace pid (.ack (.error err))) ∨
        (∃ m, StoredFor w.db inp m ∧ ¬ StoredBy w.trace pid m) →
      ∀ e (H₀ : History cfg users), e :: H₀ <:+ w.trace → e.who = some pid →
        ∀ c, e.db.maxSeq c = (Trace.db H₀).maxSeq c) ∧
    (∀ uc ∈ w.db.userConversations.rows, uc.maxSeq ≤ w.db.maxSeq uc.conversationId ∧
      uc.minSeq ≤ w.db.maxSeq uc.conversationId + 1) ∧
    (FreshIds w.trace → ∀ pid inp err, Started w.trace pid (.send inp) →
      Returned w.trace pid (.ack (.error err)) → err.is errSeqAllocFailed = false) := by
  have hv := valid_of_reachable h
  have hinv : Inv cfg w.db := inv_of_valid hv
  refine ⟨fun c ↦ ⟨nodup_seqs _ c, fun s ↦ mem_seqs.trans (hinv.seqs c s)⟩, ?_, ?_, ?_, ?_⟩
  · intro H H' c hs hs'
    exact maxSeq_mono (hv.of_suffix hs') hs c
  · intro pid inp hstart hlost e H₀ hs hwho c
    have hmarks : Mark.commit ∉ marks pid w.trace := by
      rcases hlost with ⟨err, herr⟩ | ⟨m, hm, hnot⟩
      · rw [((sendRun hv hstart).of_error herr).1]
        simp
      · intro hc
        obtain ⟨m', hby, hm'⟩ := storedBy_of_commit hv hstart hc
        obtain rfl := Option.some.inj (hm.symm.trans hm')
        exact hnot hby
    rw [leftTables_of_marks hv rfl hstart hmarks e H₀ hs hwho]
  · intro uc huc
    have hview := view_of_mem huc
    have hok := (hinv.views _ _).ok uc hview
    exact ⟨hok.max_le, hok.min_le⟩
  · intro hfresh pid inp err hstart herr
    exact ((sendRun hv hstart).of_error herr).2 hfresh

theorem gapless_demo : FreshIds Demo.world.trace ∧ (Demo.world.db.seqs "sg_g").Nodup ∧
    ∀ s, s ∈ Demo.world.db.seqs "sg_g" ↔ 1 ≤ s ∧ s ≤ 3 := by
  have hfresh : (Demo.world.trace.filterMap drawn).Nodup := by decide +kernel
  have hmax : Demo.world.db.maxSeq "sg_g" = 3 := by decide +kernel
  have h := (gapless Demo.reachable).1 "sg_g"
  rw [hmax] at h
  exact ⟨hfresh, h⟩

/-! ### Idempotency -/

/-- Under one idempotency key at most one process commits. -/
theorem committed_unique (hv : (spec cfg users).Valid H) {p q : ℕ} {inp' : SendInput} {m' : Message}
    (hp : Committed H p (.send inp m)) (hq : Committed H q (.send inp' m'))
    (hc : inp.conversation = inp'.conversation) (hs : inp.senderId = inp'.senderId)
    (hk : inp.clientMsgId = inp'.clientMsgId) : p = q := by
  obtain ⟨d, H₀, hsuf, hchange⟩ := hp
  obtain ⟨d', H₀', hsuf', hchange'⟩ := hq
  obtain ⟨hnone, hsome⟩ := hchange.client_of_send
  obtain ⟨hnone', hsome'⟩ := hchange'.client_of_send
  -- whoever comes second finds the key taken
  rcases cons_suffix_cases hsuf hsuf' with heq | hlater | hlater
  · have hwho := congrArg Entry.who (cons.inj heq).1
    exact Option.some.inj hwho
  · have hv' := hv.of_suffix ((suffix_cons _ _).trans hsuf')
    have hstored := messages_persist hv' hlater hsome
    rw [hc, hs, hk, hnone'] at hstored
    cases hstored
  · have hv' := hv.of_suffix ((suffix_cons _ _).trans hsuf)
    have hstored := messages_persist hv' hlater hsome'
    rw [← hc, ← hs, ← hk, hnone] at hstored
    cases hstored

/-- A process that serves a send with this idempotency key. -/
def Sends (H : History cfg users) (c s k : String) (pid : ℕ) (inp : SendInput) : Prop :=
  Started H pid (.send inp) ∧ inp.conversation = c ∧ inp.senderId = s ∧ inp.clientMsgId = k

/-- The message stored under an idempotency key. -/
def Db.HasMessage (d : Db) (c s k : String) (m : Message) : Prop :=
  m ∈ d.messages.rows ∧ m.conversationId = c ∧ m.senderId = s ∧ m.clientMsgId = k

theorem Sends.storedFor_iff {c s k : String} {d : Db} (h : Sends H c s k pid inp) :
    StoredFor d inp m ↔ d.HasMessage c s k m := by
  obtain ⟨-, rfl, rfl, rfl⟩ := h
  exact Nexo.storedFor_iff

theorem Db.hasMessage_iff {d : Db} {c s k : String} :
    d.HasMessage c s k m ↔ d.messages.get (.client c s k) = some m := by
  rw [HasMessage, Table.get_eq_some_iff]
  simp [Message.keys, eq_comm]

/-- **Idempotent send.** Of all the sends that share conversation, sender and client id, whatever
else their requests hold: at most one message of theirs is ever stored, and it is never modified;
those that succeed acknowledge that message, and what they publish is that message; only the one
that stored it has changed the tables, and only it has started the offline push, once. -/
theorem idempotent {w : World (system cfg users)} (h : Reachable (system cfg users) w)
    (c s k : String) :
    (∀ (H H' : History cfg users) m m', H <:+ w.trace → H' <:+ w.trace →
      (Trace.db H).HasMessage c s k m → (Trace.db H').HasMessage c s k m' → m = m') ∧
    (∀ (H H' : History cfg users) m, H <:+ H' → H' <:+ w.trace →
      (Trace.db H).HasMessage c s k m → (Trace.db H').HasMessage c s k m) ∧
    (∀ pid inp, Sends w.trace c s k pid inp →
      (∀ a, Returned w.trace pid (.ack (.ok a)) → ∃ m, w.db.HasMessage c s k m ∧ a = ack m) ∧
      ((∀ m, ¬ StoredBy w.trace pid m) → LeftTables w.trace pid) ∧
      (∀ ev, .published ev ∈ marks pid w.trace →
        ∃ m, w.db.HasMessage c s k m ∧ ev = pushEvent m inp.senderConnId) ∧
      (∀ ev, .offline ev ∈ marks pid w.trace →
        (∃ m, w.db.HasMessage c s k m ∧ StoredBy w.trace pid m) ∧
          ((marks pid w.trace).filter Mark.isOffline).length = 1)) ∧
    (∀ pid inp pid' inp' m m', Sends w.trace c s k pid inp → Sends w.trace c s k pid' inp' →
      StoredBy w.trace pid m → StoredBy w.trace pid' m' → pid = pid') := by
  have hv := valid_of_reachable h
  have hpersist : ∀ (H H' : History cfg users) m, H <:+ H' → H' <:+ w.trace →
      (Trace.db H).HasMessage c s k m → (Trace.db H').HasMessage c s k m := by
    intro H H' m hs hs' hm
    rw [Db.hasMessage_iff] at hm ⊢
    exact messages_persist (hv.of_suffix hs') hs hm
  refine ⟨?_, hpersist, ?_, ?_⟩
  · intro H H' m m' hs hs' hm hm'
    have hw := Db.hasMessage_iff.1 (hpersist H w.trace m hs (List.suffix_refl _) hm)
    have hw' := Db.hasMessage_iff.1 (hpersist H' w.trace m' hs' (List.suffix_refl _) hm')
    exact Option.some.inj (hw.symm.trans hw')
  · intro pid inp hsend
    have hrun := sendRun hv hsend.1
    refine ⟨fun a ha ↦ ?_, fun hnot ↦ ?_, fun ev hev ↦ ?_, fun ev hev ↦ ?_⟩
    · obtain ⟨m, hm, rfl⟩ := hrun.of_ack hv ha
      exact ⟨m, hsend.storedFor_iff.1 hm, rfl⟩
    · refine leftTables_of_marks hv rfl hsend.1 fun hc ↦ ?_
      obtain ⟨m, hm, -⟩ := storedBy_of_commit hv hsend.1 hc
      exact hnot m hm
    · obtain ⟨m, hm, rfl⟩ := hrun.of_published hv hev
      exact ⟨m, hsend.storedFor_iff.1 hm, rfl⟩
    · obtain ⟨hc, hone⟩ := hrun.of_offline hev
      obtain ⟨m, hby, hm⟩ := storedBy_of_commit hv hsend.1 hc
      exact ⟨⟨m, hsend.storedFor_iff.1 hm, hby⟩, hone⟩
  · intro pid inp pid' inp' m m' hsend hsend' hm hm'
    obtain ⟨n, hn⟩ := (sendRun hv hsend.1).committed hm.commit_mem
    obtain ⟨n', hn'⟩ := (sendRun hv hsend'.1).committed hm'.commit_mem
    obtain ⟨-, hc, hs, hk⟩ := hsend
    obtain ⟨-, hc', hs', hk'⟩ := hsend'
    exact committed_unique hv hn hn' (by simp [hc, hc']) (by simp [hs, hs']) (by simp [hk, hk'])

theorem idempotent_demo :
    Sends Demo.world.trace "sg_g" "u___1" "k1" 1 (Demo.message "u___1" "k1") ∧
    Sends Demo.world.trace "sg_g" "u___1" "k1" 5 (Demo.message "u___1" "k1") ∧
    ∀ a a', Returned Demo.world.trace 1 (.ack (.ok a)) →
      Returned Demo.world.trace 5 (.ack (.ok a')) → a = a' := by
  have hconv : (Demo.message "u___1" "k1").conversation = "sg_g" := by decide +kernel
  have hfirst : Sends Demo.world.trace "sg_g" "u___1" "k1" 1 (Demo.message "u___1" "k1") :=
    ⟨by decide +kernel, hconv, rfl, rfl⟩
  have hagain : Sends Demo.world.trace "sg_g" "u___1" "k1" 5 (Demo.message "u___1" "k1") :=
    ⟨by decide +kernel, hconv, rfl, rfl⟩
  refine ⟨hfirst, hagain, fun a a' ha ha' ↦ ?_⟩
  obtain ⟨honce, -, hsends, -⟩ := idempotent Demo.reachable "sg_g" "u___1" "k1"
  obtain ⟨m, hm, rfl⟩ := (hsends 1 _ hfirst).1 a ha
  obtain ⟨m', hm', rfl⟩ := (hsends 5 _ hagain).1 a' ha'
  rw [honce _ _ m m' (List.suffix_refl _) (List.suffix_refl _) hm hm']

end Nexo
