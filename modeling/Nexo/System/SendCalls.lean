import Nexo.System.GroupCalls

/-!
# Send follows the specification

Three ways through `Send`: it finds its message stored and acknowledges it again (`wp_sendRetry`),
it commits a new message (`wp_sendTx`, `wp_sendCommitted`), or the insertion inside its transaction
does nothing, and it looks the message up after the rollback (`wp_sendDuplicate`). In the third case
the message is there: the sequence number was free, being one above the counter of the locked row,
and so was the server id if ids are fresh; the key that was taken is the client's.
-/

namespace Nexo

open Relational Message Errcode List

variable {cfg : Config} {users : Table User String User.keys} {pid : ℕ} {H : History cfg users}
  {inp : SendInput}

/-! ### The normalized input -/

namespace Message.SendInput

variable (inp : SendInput)

@[simp] theorem senderId_normalize : inp.normalize.senderId = inp.senderId := by
  unfold normalize
  split <;> rfl

@[simp] theorem senderConnId_normalize : inp.normalize.senderConnId = inp.senderConnId := by
  unfold normalize
  split <;> rfl

@[simp] theorem clientMsgId_normalize : inp.normalize.clientMsgId = inp.clientMsgId := by
  unfold normalize
  split <;> rfl

@[simp] theorem sessionType_normalize : inp.normalize.sessionType = inp.sessionType := by
  unfold normalize
  split <;> rfl

@[simp] theorem conversation_normalize : inp.normalize.conversation = inp.conversation := by
  unfold normalize conversation
  split <;> simp_all

end Message.SendInput

theorem StoredFor.normalize_iff {d : Db} {m : Message} :
    StoredFor d inp.normalize m ↔ StoredFor d inp m := by
  simp [StoredFor]

/-! ### Errors of Send -/

/-- An error that `Send` may return without having failed to allocate a sequence number, as it is or
through `errcode.Or`. -/
structure Err.Plain (err : Err) : Prop where
  is : err.is errSeqAllocFailed = false
  or : (err.or errMessageSendFailed).is errSeqAllocFailed = false

theorem Err.Plain.store (e : StoreErr) : Err.Plain (.store e) := ⟨rfl, rfl⟩

theorem plain_of_validate {err : Err} (h : validate cfg inp = some err) :
    err.Plain := by
  unfold validate at h
  split_ifs at h <;> cases h <;> exact ⟨rfl, rfl⟩

/-- What `validate` establishes. -/
theorem of_validate (h : validate cfg inp = none) :
    (inp.sessionType = conversationSingle ∧ inp.recvId ≠ inp.senderId ∧
        ':' ∉ inp.recvId.toList) ∨ inp.sessionType = conversationGroup := by
  unfold validate at h
  split_ifs at h with h₁ h₂ h₃ h₄ h₅ h₆ h₇ h₈ h₉
  by_cases hs : inp.sessionType = conversationSingle
  · have hvalid : Identity.valid cfg.uuidString inp.recvId = true := by
      by_contra hv
      exact h₃ ⟨hs, by simpa using hv⟩
    exact .inl ⟨hs, fun heq ↦ h₄ ⟨hs, heq⟩, Identity.colon_notMem_of_valid hvalid⟩
  · by_contra hcon
    exact h₆ ⟨hs, fun hg ↦ hcon (.inr hg)⟩

theorem send_refused {err : Err} (hc : Ctx (.send inp) [] pid H)
    (herr : err.is errSeqAllocFailed = false) :
    (spec cfg users).Returns pid (.ack (.error err)) .out H :=
  returns hc fun _ hc' _ ↦ .sendError hc'.marks fun _ ↦ herr

/-! ### Questions before the transaction -/

section Questions

variable {req : Request} {ms : List Mark}

section

variable (hc : Ctx req ms pid H) {inp : SendInput} {Q : Post (system cfg users) Bool}
include hc

theorem wp_normalizeDestination
    {Q : Post (system cfg users) (Except Err (String × SendInput × Option Group))}
    (herr : ∀ H' err, Ctx req ms pid H' → err.Plain → Q (.error err) .out H')
    (hok : ∀ H' g, Ctx req ms pid H' → Found H' pid inp →
      Q (.ok (inp.conversation, inp.normalize, g)) .out H') :
    (spec cfg users).wp pid (normalizeDestination inp) .out H Q := by
  unfold normalizeDestination
  split
  · next hs =>
    refine wp_query hc fun H₁ r hc₁ _ hr ↦ ?_
    rcases r with e | u
    · cases e <;> exact herr _ _ hc₁ ⟨rfl, rfl⟩
    · -- the stored spelling of the id
      have hexec := exec_of_ok (q := .getUser inp.recvId) hr
      have hid : u.id = inp.recvId := id_eq_of_get (one_eq_ok.1 hexec)
      have h := hok _ none hc₁ fun _ ↦ ⟨u, H₁, .now⟩
      rw [SendInput.conversation, SendInput.normalize, if_pos hs, if_pos hs] at h
      simp only [hid]
      exact h
  · next hs =>
    refine wp_query hc fun H₁ r hc₁ _ hr ↦ ?_
    rcases r with e | g
    · cases e <;> exact herr _ _ hc₁ ⟨rfl, rfl⟩
    · -- the stored spelling of the id
      have hexec := exec_of_ok (q := .getGroup inp.groupId) hr
      have hid : g.id = inp.groupId := groupId_eq_of_get (one_eq_ok.1 hexec)
      have h := hok _ (some g) hc₁ fun hsingle ↦ absurd hsingle hs
      rw [SendInput.conversation, SendInput.normalize, if_neg hs, if_neg hs] at h
      simp only [hid]
      exact h

theorem wp_checkGroupSend {g : Group} {u : String} {Q : Post (system cfg users) (Except Err Unit)}
    (h : ∀ H' r, Ctx req ms pid H' → H <:+ H' → Q r .out H') :
    (spec cfg users).wp pid (checkGroupSend g u) .out H Q := by
  unfold checkGroupSend
  split
  · exact h _ _ hc (suffix_refl _)
  refine wp_query hc fun H₁ r hc₁ hs _ ↦ ?_
  have h₁ : ∀ r, Q r .out _ := fun r ↦ h _ r hc₁ (hs.trans (suffix_cons _ _))
  match r with
  | .error .notFound | .error .duplicate | .error .failed => exact h₁ _
  | .ok _ => exact h₁ _

theorem wp_republishAllowed {g : Option Group}
    (h : ∀ H' b, Ctx req ms pid H' → H <:+ H' → Q b .out H') :
    (spec cfg users).wp pid (republishAllowed inp g) .out H Q := by
  unfold republishAllowed
  split
  · exact h _ _ hc (suffix_refl _)
  cases g with
  | none => exact h _ _ hc (suffix_refl _)
  | some g =>
    refine Spec.wp_bind.2 (wp_checkGroupSend hc fun H₁ r hc₁ hs ↦ ?_)
    cases r with
    | ok | error => exact h _ _ hc₁ hs

theorem wp_republishQuota (h : ∀ H' b, Ctx req ms pid H' → H <:+ H' → Q b .out H') :
    (spec cfg users).wp pid (republishQuota inp) .out H Q := by
  unfold republishQuota
  split
  · exact h _ _ hc (suffix_refl _)
  refine wp_question rfl hc fun H₁ now hc₁ hs₁ ↦ ?_
  exact wp_question (f := Prog.ret) rfl hc₁ fun H₂ b hc₂ hs₂ ↦ h _ b hc₂ (hs₁.trans hs₂)

theorem wp_sendQuota {now : Time} (h : ∀ H' b, Ctx req ms pid H' → H <:+ H' → Q b .out H') :
    (spec cfg users).wp pid (sendQuota inp now) .out H Q := by
  refine Spec.wp_ite (fun _ ↦ h _ _ hc (suffix_refl _)) fun _ ↦ ?_
  exact wp_question (f := Prog.ret) rfl hc fun H₁ b hc₁ hs ↦ h _ b hc₁ hs

end

end Questions

/-! ### A stored message is acknowledged again -/

section Again

variable {inp : SendInput} {m : Message}

theorem ack_again {ms : List Mark} (hc : Ctx (.send inp) ms pid H)
    (hms : ms = [] ∨ ms = [.published (pushEvent m inp.senderConnId)])
    (hm : StoredFor (Trace.db H) inp m) :
    (spec cfg users).Returns pid (.ack (.ok (ack m))) .out H :=
  returns hc fun _ hc' hs ↦ .sendAckAgain (hc'.marks ▸ hms) (hm.later hc'.valid hs)

section

variable (hc : Ctx (.send inp) [] pid H)
include hc

theorem wp_republish {Q : Post (system cfg users) (Except Err Ack)}
    (hm : StoredFor (Trace.db H) inp m)
    (h : ∀ H', Ctx (.send inp) [.published (pushEvent m inp.senderConnId)] pid H' →
      StoredFor (Trace.db H') inp m → Q (.ok (ack m)) .out H') :
    (spec cfg users).wp pid (do
      republish m inp.senderConnId
      return .ok (ack m)) .out H Q := by
  refine wp_announce (k := .published (pushEvent m inp.senderConnId)) (fun _ ↦ rfl) hc
    (fun H' _ hc' hs ↦ .sendRepublish hc'.marks (hm.later hc'.valid hs)) fun H₁ _ hc₁ hs ↦ ?_
  exact h _ hc₁ (hm.later hc₁.valid hs)

theorem wp_sendRetry {g : Option Group}
    (hm : StoredFor (Trace.db H) inp m) :
    (spec cfg users).wp pid (sendRetry inp.normalize g m) .out H
      fun r ↦ (spec cfg users).Returns pid (.ack r) := by
  refine Spec.wp_bind.2 (wp_republishAllowed hc fun H₁ b hc₁ hs₁ ↦ ?_)
  have hm₁ := hm.later hc₁.valid hs₁
  cases b with
  | false => exact ack_again hc₁ (.inl rfl) hm₁
  | true =>
    refine Spec.wp_bind.2 (wp_republishQuota hc₁ fun H₂ b hc₂ hs₂ ↦ ?_)
    have hm₂ := hm₁.later hc₂.valid hs₂
    cases b with
    | false => exact ack_again hc₂ (.inl rfl) hm₂
    | true =>
      rw [SendInput.senderConnId_normalize]
      exact wp_republish hc₂ hm₂ fun H' hc' hm' ↦ ack_again hc' (.inr rfl) hm'

/-- The key that was taken is the client's, unless ids repeat. -/
theorem wp_sendDuplicate {H₀ : History cfg users}
    (hs₀ : H₀ <:+ H) (hdup : FreshIds H₀ → ∃ m, StoredFor (Trace.db H₀) inp m) :
    (spec cfg users).wp pid (sendDuplicate inp.normalize inp.conversation) .out H
      fun r ↦ (spec cfg users).Returns pid (.ack r) := by
  unfold sendDuplicate
  rw [SendInput.senderConnId_normalize, SendInput.senderId_normalize,
    SendInput.clientMsgId_normalize]
  refine wp_query hc fun H₁ r hc₁ hs₁ hr ↦ ?_
  match r, hr with
  | .error .duplicate, _ | .error .failed, _ => exact send_refused hc₁ rfl
  | .error .notFound, .inl hr =>
    refine returns hc₁ fun H' hc' hs' ↦ .sendError hc'.marks fun hfresh ↦ ?_
    have hs : H₀ <:+ H₁ := hs₀.trans hs₁
    obtain ⟨m, hm⟩ := hdup (hfresh.of_suffix ((hs.trans (suffix_cons _ _)).trans hs'))
    have hm₁ : _ = some m := hm.later hc₁.valid.tail hs
    rw [Query.exec, hm₁] at hr
    cases hr
  | .ok m, hr =>
    have hexec := exec_of_ok (q := .getMessageByClientId inp.conversation inp.senderId
      inp.clientMsgId) hr
    exact wp_republish hc₁ (one_eq_ok.1 hexec) fun H' hc' hm' ↦ ack_again hc' (.inr rfl) hm'

end

end Again

/-! ### The transaction -/

section Tx

variable {inp : SendInput} {v : Db} {done : List Stmt} {held : List Key}

/-- The membership check of the transaction, in the state the transaction commits on. -/
theorem wp_checkSender (hk : inp.sessionType = conversationGroup →
      .conv (Conv.group inp.groupId) ∈ held) :
    (spec cfg users).wp pid (checkSender inp) (.tx v done held) H
      (ReadTx v done held H fun r ↦ (∀ err, r = .error err → err.Plain) ∧
        (r = .ok () → inp.sessionType = conversationGroup →
          (v.groups.get inp.groupId).isSome ∧ v.isMember inp.groupId inp.senderId)) := by
  have hplain : ∀ {err : Err}, err.Plain →
      (∀ err', (Except.error err : Except Err Unit) = .error err' → err'.Plain) ∧
        ((Except.error err : Except Err Unit) = .ok () → inp.sessionType = conversationGroup →
          (v.groups.get inp.groupId).isSome ∧ v.isMember inp.groupId inp.senderId) := by
    intro err herr
    exact ⟨fun err' h ↦ Except.error.inj h ▸ herr, nofun⟩
  unfold checkSender
  split
  swap
  · next hs => exact .none ⟨by simp, fun _ h ↦ absurd h hs⟩
  next hs =>
  refine wp_query_tx trivial (fun r hr ↦ ?_) (.none (hplain (.store _)))
  rcases r with e | g
  · exact .intro (hplain (.store e)) [_]
  obtain ⟨status, hg⟩ := hr
  have hid : g.id = inp.groupId := (groupId_eq_of_get hg :)
  refine wp_append_readTx [_] ?_
  change (spec cfg users).wp pid (checkGroupSend g inp.senderId) _ _ _
  unfold checkGroupSend
  split
  · exact .none (hplain ⟨rfl, rfl⟩)
  rw [hid]
  refine wp_query_tx (hk hs) (fun r hr ↦ ?_) (.none (hplain (.store _)))
  rcases r with e | m
  · cases e with
    | notFound => exact .intro (hplain ⟨rfl, rfl⟩) [_]
    | _ => exact .intro (hplain (.store _)) [_]
  · obtain ⟨role, hm⟩ := hr
    refine .intro ⟨by simp, fun _ _ ↦ ⟨?_, ?_⟩⟩ [_]
    · rw [hg]
      rfl
    · rw [Db.isMember, hm]
      rfl

theorem wp_touchConversations {m : Message} {Q : Post (system cfg users) (Except StoreErr Unit)}
    (h : ∀ ss : List Stmt, (∀ s ∈ ss, Writes [.conv inp.conversation] s) →
      Q (.ok ()) (.tx (v.touchSend inp m) (done ++ ss) held) H)
    (hfail : ∀ v' done', Q (.error .failed) (.tx v' done' held) H) :
    (spec cfg users).wp pid (touchConversations inp inp.conversation m.seq m.sendTime)
      (.tx v done held) H Q := by
  unfold touchConversations
  unfold Db.touchSend at h
  by_cases hs : inp.sessionType = conversationSingle
  · simp only [if_pos hs] at h ⊢
    refine wp_update_tx (nil_subset _) rfl ?_ (hfail _ _)
    refine wp_update_tx_last (nil_subset _) rfl ?_ (hfail _ _)
    rw [append_assoc]
    exact h _ (by simp [Writes, Update.touches])
  · simp only [if_neg hs] at h ⊢
    refine wp_update_tx (nil_subset _) rfl ?_ (hfail _ _)
    refine Spec.wp_ite (c := inp.readTarget m.seq = 0) (fun hread ↦ ?_) fun hread ↦ ?_
    · rw [if_pos hread] at h
      exact h _ (by simp [Writes, Update.touches])
    · rw [if_neg hread] at h
      refine wp_update_tx_last (nil_subset _) rfl ?_ (hfail _ _)
      rw [append_assoc]
      exact h _ (by simp [Writes, Update.touches])

/-- What the callback of `Send` does: it fails; it finds a key taken, which is the client's if ids
are fresh; or the tables it is about to commit are those of the action. -/
def SendTx (inp : SendInput) (id : String) (H : History cfg users) :
    Post (system cfg users) (Except Err Unit × Bool × Message) := fun r m H' ↦
  H' = H ∧ ∃ v done held, m = .tx v done held ∧
    match r with
    | (.error err, false, _) => err.Plain
    | (.error _, true, _) => FreshIds H → ∃ m, StoredFor (Trace.db H) inp m
    | (.ok (), dup, m) => dup = false ∧ m.serverMsgId = id ∧ (∀ s ∈ done, Writes held s) ∧
        Change cfg (Trace.db H) (.send inp m) v

theorem SendTx.error {id : String} {err : Err} {m : Message} (herr : err.Plain) :
    SendTx inp id H (.error err, false, m) (.tx v done held) H :=
  ⟨rfl, v, done, held, rfl, herr⟩

theorem wp_sendTx {id : String} {now : Time} (hinv : Inv cfg (Trace.db H))
    (hdest : (inp.sessionType = conversationSingle ∧ inp.recvId ≠ inp.senderId ∧
      ':' ∉ inp.recvId.toList) ∨ inp.sessionType = conversationGroup)
    (hfresh : FreshIds H → (Trace.db H).messages.get (.server id) = none) :
    (spec cfg users).wp pid (sendTx inp inp.conversation (newMessage inp inp.conversation id) now)
      (.tx (Trace.db H) [] []) H (SendTx inp id H) := by
  have hconv : inp.sessionType = conversationGroup → inp.conversation = Conv.group inp.groupId :=
    fun hg ↦ if_neg (by rw [hg]; decide)
  refine Spec.wp_bind.2 (wp_lockConversation ?_ fun _ _ _ _ ↦ .error (.store _))
  refine wp_bind_readTx (wp_checkSender fun hg ↦ ?_) fun r qs hr ↦ ?_
  · rw [← hconv hg]
    exact mem_cons_self
  match r, hr with
  | .error err, hr => exact .error (hr.1 err rfl)
  | .ok (), hr =>
    have hadm : inp.Admitted (Trace.db H) := hdest.imp_right fun hg ↦ ⟨hg, hr.2 rfl hg⟩
    have hneeds : (Update.insertMessage (place (newMessage inp inp.conversation id)
        ((Trace.db H).lockedRow inp.conversation inp.sessionType inp.groupId now) now)).needs ⊆
        [.server id, .conv inp.conversation] := by
      simp [Update.needs, place, newMessage]
    by_cases hfree : (Trace.db H).messages.Free (place (newMessage inp inp.conversation id)
      ((Trace.db H).lockedRow inp.conversation inp.sessionType inp.groupId now) now)
    · refine wp_update_tx (r := .ok true) hneeds
        (congrArg (fun b ↦ (Except.ok b, _)) (decide_eq_true hfree)) ?_ (.error (.store _))
      refine wp_update_tx (nil_subset _) rfl ?_ (.error (.store _))
      refine Spec.wp_bind.2 (wp_touchConversations (fun ss hss ↦ ?_) fun _ _ ↦ .error (.store _))
      refine ⟨rfl, _, _, _, rfl, rfl, rfl, ?_, .send hadm rfl hfree⟩
      simp only [forall_mem_append, forall_mem_singleton, forall_mem_map]
      have hconvKey : [.conv inp.conversation] ⊆ [Key.server id, .conv inp.conversation] :=
        subset_cons_self _ _
      refine ⟨⟨⟨⟨⟨⟨by simp, hconvKey⟩, trivial⟩, fun _ _ ↦ trivial⟩, ?_⟩, hconvKey⟩,
        fun s hs ↦ (hss s hs).mono hconvKey⟩
      exact hneeds
    · refine wp_update_tx (r := .ok false) hneeds
        (congrArg (fun b ↦ (Except.ok b, _)) (decide_eq_false hfree)) ?_ (.error (.store _))
      refine ⟨rfl, _, _, _, rfl, fun hids ↦ Option.isSome_iff_exists.1 ?_⟩
      by_contra hclient
      refine hfree (Db.free_message_iff.2 ⟨?_, hfresh hids, Option.not_isSome_iff_eq_none.1 hclient⟩)
      have hseq := hinv.seqs inp.conversation ((Trace.db H).maxSeq inp.conversation + 1)
      rw [seq_place]
      exact Option.not_isSome_iff_eq_none.1 fun hsome ↦ by have := hseq.1 hsome; omega

end Tx

/-! ### After the transaction -/

section After

variable {inp : SendInput}

theorem wp_sendCommitted {m : Message} (hc : Ctx (.send inp) [.commit] pid H)
    (hm : Committed H pid (.send inp.normalize m)) :
    (spec cfg users).wp pid (sendCommitted cfg inp.normalize m) .out H
      fun r ↦ (spec cfg users).Returns pid (.ack r) := by
  unfold sendCommitted publish
  rw [SendInput.senderConnId_normalize]
  refine wp_announce (k := .published (pushEvent m inp.senderConnId)) (fun _ ↦ rfl) hc
    (fun H' _ hc' hs ↦ .sendPublish hc'.marks (hm.mono hs)) fun H₁ _ hc₁ hs₁ ↦ ?_
  have hm₁ := hm.mono hs₁
  refine Spec.wp_ite (fun _ ↦ ?_) fun _ ↦ ?_
  · refine wp_announce (k := .offline (pushEvent m inp.senderConnId)) (fun _ ↦ rfl) hc₁
      (fun H' _ hc' hs ↦ .sendOffline hc'.marks (hm₁.mono hs)) fun H₂ _ hc₂ hs₂ ↦ ?_
    exact returns hc₂ fun H' hc' hs ↦ .sendAck (.inr hc'.marks) (hm₁.mono (hs₂.trans hs))
  · exact returns hc₁ fun H' hc' hs ↦ .sendAck (.inl hc'.marks) (hm₁.mono hs)

/-- The end of the transaction of `Send`. -/
theorem txPost_sendTx {id : String} {H₀ : History cfg users} (hc : Ctx (.send inp) [] pid H₀)
    (hid : Drew H₀ pid id) (hto : Found H₀ pid inp) (r : Except Err Unit × Bool × Message) (m : Mode sig)
    (H : History cfg users) (h : SendTx inp.normalize id H₀ r m H) :
    TxPost pid H₀ (fun r m H' ↦ (spec cfg users).wp pid
      (match r with
        | (_, true, _) => sendDuplicate inp.normalize inp.conversation
        | (.error err, false, _) => return .error (err.or errMessageSendFailed)
        | (.ok (), false, msg) => sendCommitted cfg inp.normalize msg) m H'
      fun r ↦ (spec cfg users).Returns pid (.ack r)) r m H := by
  obtain ⟨rfl, v, done, held, rfl, h⟩ := h
  refine ⟨rfl, v, done, held, rfl, ?_⟩
  match r, h with
  | (.error err, false, _), h => exact send_refused hc h.or
  | (.error err, true, _), h =>
    refine wp_sendDuplicate hc (suffix_refl _) fun hids ↦ ?_
    obtain ⟨m, hm⟩ := h hids
    exact ⟨m, StoredFor.normalize_iff.1 hm⟩
  | (.ok (), false, m), ⟨_, hm, hw, hchange⟩ =>
    have hdoes : Does H pid (.send inp) .commit v := .sendCommit hc.marks hchange (hm ▸ hid) hto
    exact ⟨hw, hc.allowed hdoes,
      wp_sendCommitted (hc.cons hdoes) ⟨v, H, suffix_refl _, hchange⟩,
      send_refused hc (Err.Plain.store _).or⟩

theorem wp_sendNew (hval : validate cfg inp = none) (hc : Ctx (.send inp) [] pid H)
    (hto : Found H pid inp) :
    (spec cfg users).wp pid (sendNew cfg inp.normalize inp.conversation) .out H
      fun r ↦ (spec cfg users).Returns pid (.ack r) := by
  refine wp_question rfl hc fun H₁ now hc₁ hs₁ ↦ ?_
  refine Spec.wp_bind.2 (wp_sendQuota hc₁ fun H₂ b hc₂ hs₂ ↦ ?_)
  refine Spec.wp_ite (fun _ ↦ ?_) fun _ ↦ send_refused hc₂ rfl
  refine wp_question rfl hc₂ fun H₃ id hc₃ hs₃ ↦ ?_
  refine Spec.wp_bind.2 (wp_withTx hc₃ (fun H' hc' _ ↦ send_refused hc' (Err.Plain.store _).or) ?_)
  intro H₄ hc₄ hs₄
  have hdrew : Drew H₄ pid id := Drew.mono ⟨_, mem_cons_self⟩ hs₄
  have hdest : (inp.normalize.sessionType = conversationSingle ∧
      inp.normalize.recvId ≠ inp.normalize.senderId ∧ ':' ∉ inp.normalize.recvId.toList) ∨
      inp.normalize.sessionType = conversationGroup := by
    rcases of_validate hval with hs | hg
    · rw [SendInput.normalize, if_pos hs.1]
      exact .inl hs
    · exact .inr (inp.sessionType_normalize.trans hg)
  have hto₄ : Found H₄ pid inp := hto.mono (((hs₁.trans hs₂).trans hs₃).trans hs₄)
  refine Spec.wp_mono (txPost_sendTx hc₄ hdrew hto₄) ?_
  rw [← SendInput.conversation_normalize]
  exact wp_sendTx hc₄.inv hdest fun hids ↦ server_free hc₄.valid hids hdrew hc₄.marks

/-- **Send.** -/
theorem wp_send (hc : Ctx (.send inp) [] pid H) :
    (spec cfg users).wp pid (send cfg inp) .out H
      fun r ↦ (spec cfg users).Returns pid (.ack r) := by
  unfold send
  rcases hval : validate cfg inp with - | err
  swap
  · exact send_refused hc (plain_of_validate hval).is
  refine Spec.wp_bind.2 (wp_normalizeDestination hc
    (fun H' err hc' herr ↦ send_refused hc' herr.is) fun H₁ g hc₁ hto ↦ ?_)
  change (spec cfg users).wp pid (query (.getMessageByClientId inp.conversation
    inp.normalize.senderId inp.normalize.clientMsgId) >>= _) _ _ _
  refine wp_query hc₁ fun H₂ r hc₂ hs₂ hr ↦ ?_
  match r, hr with
  | .error .notFound, _ => exact wp_sendNew hval hc₂ (hto.mono (hs₂.trans (suffix_cons _ _)))
  | .error .duplicate, _ | .error .failed, _ => exact send_refused hc₂ rfl
  | .ok m, hr =>
    have hexec := exec_of_ok (q := .getMessageByClientId inp.conversation inp.normalize.senderId
      inp.normalize.clientMsgId) hr
    rw [SendInput.senderId_normalize, SendInput.clientMsgId_normalize] at hexec
    exact wp_sendRetry hc₂ (one_eq_ok.1 hexec)

end After

end Nexo
