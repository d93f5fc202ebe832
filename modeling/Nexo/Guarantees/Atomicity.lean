import Nexo.Guarantees.Message
import Nexo.Lib.Erase
import Nexo.Lib.Serial

/-!
# What holds of failures

A call that writes either has its effect, and announces it once, after its commit; or it returns an
error, and then the world is as if it had never been called (`atomicity`). That covers a failure at
any statement, a transaction that cannot be opened or committed, and the transaction `Send` rolls
back on purpose when it meets its own message.
-/

namespace Nexo

open Relational Message Errcode

variable {cfg : Config} {users : Table User String User.keys} {pid : ℕ} {H : History cfg users}
  {inp : SendInput}

/-! ### Errors -/

/-- Is this an error? -/
def Response.isError : Response → Bool
  | .ack (.error _) => true
  | .info (.error _) => true
  | .done (.error _) => true
  | .read (.error _) => true
  | .page (.error _) => true
  | _ => false

theorem Action.answer_isError (a : Action) : a.answer.isError = false := by
  cases a <;> rfl

/-- **A call that returned an error has had no effect.** -/
theorem marks_of_error {req : Request} {v : Response} (hv : (spec cfg users).Valid H)
    (hreq : req.isTransactional) (hstart : Started H pid req) (herr : v.isError)
    (hret : Returned H pid v) : marks pid H = [.returned v] := by
  by_cases hmember : req.isMembership
  · have hrun := memberRun hv hmember hstart
    rw [Returned] at hret
    generalize marks pid H = ms at hrun hret
    cases hrun with
    | idle => cases hret
    | refused =>
      obtain rfl : v = _ := by simpa using hret
      rfl
    | @new a _ _ _ hms =>
      have hanswer := a.answer_isError
      rcases hms with rfl | rfl | rfl <;> simp at hret
      rw [hret, hanswer] at herr
      cases herr
  · cases req with
    | send inp =>
      have hrun := sendRun hv hstart
      have hback : ∃ err, v = .ack (.error err) := by
        rw [Returned] at hret
        generalize marks pid H = ms at hrun hret
        cases hrun with
        | idle => cases hret
        | @refused err _ => exact ⟨err, by simpa using hret⟩
        | again _ hms =>
          rcases hms with rfl | rfl | rfl <;> simp at hret <;> rw [hret] at herr <;> cases herr
        | new _ hms =>
          rcases hms with rfl | rfl | rfl | rfl | rfl <;> simp at hret <;> rw [hret] at herr <;>
            cases herr
      obtain ⟨err, rfl⟩ := hback
      exact (hrun.of_error hret).1
    | _ => exact absurd hreq hmember

/-! ### Success -/

/-- Everything a successful membership call has done, newest first. -/
theorem marks_of_member {req : Request} {v : Response} (hv : (spec cfg users).Valid H)
    (hreq : req.isMembership) (hstart : Started H pid req) (hok : v.isError = false)
    (hret : Returned H pid v) :
    ∃ a, Membership req a ∧ Committed H pid a ∧ v = a.answer ∧
      marks pid H = [.returned v, .changed a.group, .commit] := by
  have hrun := memberRun hv hreq hstart
  rw [Returned] at hret
  generalize marks pid H = ms at hrun hret
  cases hrun with
  | idle => cases hret
  | refused hrefused =>
    obtain rfl : v = _ := by simpa using hret
    cases hrefused <;> cases hok
  | @new a _ hmember ha hms =>
    rcases hms with rfl | rfl | rfl
    · simp at hret
    · simp at hret
    · obtain rfl : v = a.answer := by simpa using hret
      exact ⟨a, hmember, ha, rfl, rfl⟩

/-- What a send that stored its message has done when it returns, newest first: it has committed,
published once, perhaps started the offline push, and acknowledged. -/
def SendDone (inp : SendInput) (m : Message) (ms : List Mark) : Prop :=
  ms = [.returned (.ack (.ok (ack m))), .published (pushEvent m inp.senderConnId), .commit] ∨
  ms = [.returned (.ack (.ok (ack m))), .offline (pushEvent m inp.senderConnId),
    .published (pushEvent m inp.senderConnId), .commit]

/-- The message a send stored is the one it committed. -/
theorem StoredBy.committed {m : Message} (h : StoredBy H pid m) (hv : (spec cfg users).Valid H)
    (hstart : Started H pid (.send inp)) :
    Committed H pid (.send inp.normalize m) := by
  obtain ⟨d, H₀, hs, hnot, hmem⟩ := h
  have hne : d ≠ Trace.db H₀ := fun heq ↦ hnot (heq ▸ hmem)
  have hallowed : Allowed H₀ ⟨some pid, .commit, d⟩ := (hv.of_suffix hs).head
  rcases hallowed.action with heq | ⟨a, hchange, hsend⟩
  · exact absurd heq hne
  rcases hchange.messages with ⟨inp', m', rfl, -, -, hfree, heq, -⟩ | ⟨heq, -⟩
  · obtain ⟨p, inp₀, hwho, -, hstart₀, rfl, -⟩ := hsend inp' m' rfl
    cases hwho
    have hreq := started_unique hv hstart (hstart₀.mono ((List.suffix_cons _ _).trans hs))
    obtain rfl := Request.send.inj hreq
    rw [heq, Table.mem_insert_of_free hfree] at hmem
    obtain rfl := hmem.resolve_left hnot
    exact ⟨d, H₀, hs, hchange⟩
  · exact absurd (heq ▸ hmem) hnot

theorem sendDone_of_returned {m : Message} {v : Response} (hv : (spec cfg users).Valid H)
    (hstart : Started H pid (.send inp)) (hm : StoredBy H pid m) (hret : Returned H pid v) :
    SendDone inp m (marks pid H) := by
  have hrun := sendRun hv hstart
  have hcommit := hm.commit_mem
  have hstored := (hm.committed hv hstart).stored hv
  rw [Returned] at hret
  generalize marks pid H = ms at hrun hret hcommit
  cases hrun with
  | idle => cases hret
  | refused => simp at hcommit
  | again _ hms => rcases hms with rfl | rfl | rfl <;> simp at hcommit
  | @new m' _ hm' hms =>
    obtain rfl := Option.some.inj (hstored.symm.trans (hm'.stored hv))
    rcases hms with rfl | rfl | rfl | rfl | rfl
    · simp at hret
    · simp at hret
    · simp at hret
    · exact .inl rfl
    · exact .inr rfl

/-- **A send that has stored its message returns**: its own steps lead it there. -/
theorem sendDone_later {w : World (system cfg users)} (h : Reachable (system cfg users) w)
    {m : Message} (hstart : Started w.trace pid (.send inp)) (hm : StoredBy w.trace pid m) :
    ∃ w' new, Relation.ReflTransGen (Step (system cfg users)) w w' ∧ w'.trace = new ++ w.trace ∧
      (∀ e ∈ new, e.who = some pid) ∧ SendDone inp m (marks pid w'.trace) := by
  obtain ⟨d, hd⟩ := id hstart
  rcases running_or_returned h hd rfl with ⟨p, tx, hp⟩ | ⟨v, d', hret⟩
  · obtain ⟨w', new, v, hsteps, hnew, htrace⟩ :=
      canReturn spec_sound (answers 0 "") p (Spec.inv_of_reachable spec_sound h) hp
    have hs : w.trace <:+ w'.trace := by
      rw [htrace]
      exact (List.suffix_append new _).trans (List.suffix_cons _ _)
    have hret : Returned w'.trace pid v := by
      rw [Returned, htrace, marks_cons_self]
      exact List.mem_cons_self
    refine ⟨w', _ :: new, hsteps, htrace, ?_, ?_⟩
    · rintro e (- | ⟨-, he⟩)
      · rfl
      · exact hnew e he
    · exact sendDone_of_returned (valid_of_reachable (h.trans hsteps)) (hstart.mono hs)
        (hm.mono hs) hret
  · exact ⟨w, [], .refl, rfl, by simp,
      sendDone_of_returned (valid_of_reachable h) hstart hm (mem_marks.2 ⟨_, hret, rfl, rfl⟩)⟩

/-! ### The result -/

/-- **Failure atomicity.** For every call that writes, in every reachable world, whatever failed and
whatever else ran: if it returned an error, it has emitted nothing, and the world without it is
reachable too and has the same tables; a membership call that succeeded has committed its action and
then announced it once; a send that stored its message returns the acknowledgement of that message,
and when it has, it has published the message once, after the commit. -/
theorem atomicity {w : World (system cfg users)} (h : Reachable (system cfg users) w) (pid : ℕ)
    (req : Request) (hstart : Started w.trace pid req) :
    (req.isTransactional → ∀ v, v.isError → Returned w.trace pid v →
      marks pid w.trace = [.returned v] ∧ LeftTables w.trace pid ∧
      Reachable (system cfg users) (w.without pid) ∧ (w.without pid).db = w.db) ∧
    (req.isMembership → ∀ v, v.isError = false → Returned w.trace pid v →
      ∃ a, Membership req a ∧ Committed w.trace pid a ∧ v = a.answer ∧
        marks pid w.trace = [.returned v, .changed a.group, .commit]) ∧
    (∀ inp m, req = .send inp → StoredBy w.trace pid m →
      (∀ v, Returned w.trace pid v → SendDone inp m (marks pid w.trace)) ∧
      ∃ w' new, Relation.ReflTransGen (Step (system cfg users)) w w' ∧ w'.trace = new ++ w.trace ∧
        (∀ e ∈ new, e.who = some pid) ∧ SendDone inp m (marks pid w'.trace)) := by
  have hv := valid_of_reachable h
  refine ⟨fun hreq v herr hret ↦ ?_, fun hreq v hok hret ↦ ?_, ?_⟩
  · have hmarks := marks_of_error hv hreq hstart herr hret
    have hleft : LeftTables w.trace pid :=
      leftTables_of_marks hv hreq hstart (by rw [hmarks]; simp)
    have halone : w.LeftAlone pid := hleft
    exact ⟨hmarks, hleft, reachable_without h halone, halone.db_without⟩
  · exact marks_of_member hv hreq hstart hok hret
  · rintro inp m rfl hm
    exact ⟨fun v hret ↦ sendDone_of_returned hv hstart hm hret, sendDone_later h hstart hm⟩

theorem atomicity_demo :
    (∃ v, v.isError ∧ marks 8 Demo.world.trace = [.returned v] ∧
      Reachable (system Demo.config Demo.accounts) (Demo.world.without 8)) ∧
    (∃ v a, v.isError = false ∧
      marks 4 Demo.world.trace = [.returned v, .changed (Action.group a), .commit]) ∧
    ∃ m, StoredBy Demo.world.trace 1 m ∧
      SendDone (Demo.message "u___1" "k1") m (marks 1 Demo.world.trace) := by
  have hjoin : Started Demo.world.trace 4 (.join "g" "u___2") := by decide +kernel
  have hagain : Started Demo.world.trace 8 (.join "g" "u___2") := by decide +kernel
  have hsend : Started Demo.world.trace 1 (.send (Demo.message "u___1" "k1")) := by decide +kernel
  have hreturns : ∀ pid b, (marks pid Demo.world.trace).any (fun k ↦ match k with
      | .returned v => v.isError == b
      | _ => false) = true → ∃ v, v.isError = b ∧ Returned Demo.world.trace pid v := by
    intro pid b hany
    obtain ⟨k, hk, hb⟩ := List.any_eq_true.1 hany
    cases k with
    | returned v => exact ⟨v, by simpa using hb, hk⟩
    | _ => cases hb
  refine ⟨?_, ?_, ?_⟩
  · obtain ⟨v, herr, hret⟩ := hreturns 8 true (by decide +kernel)
    obtain ⟨hmarks, -, hreach, -⟩ := (atomicity Demo.reachable 8 _ hagain).1 rfl v herr hret
    exact ⟨v, herr, hmarks, hreach⟩
  · obtain ⟨v, hok, hret⟩ := hreturns 4 false (by decide +kernel)
    obtain ⟨a, -, -, -, hmarks⟩ := (atomicity Demo.reachable 4 _ hjoin).2.1 rfl v hok hret
    exact ⟨v, a, hok, hmarks⟩
  · have hcommit : (marks 1 Demo.world.trace).any (fun k ↦ match k with
        | .commit => true
        | _ => false) = true := by decide +kernel
    obtain ⟨k, hk, hb⟩ := List.any_eq_true.1 hcommit
    obtain rfl : k = .commit := by cases k <;> first | rfl | cases hb
    obtain ⟨m, hm, -⟩ := storedBy_of_commit (valid_of_reachable Demo.reachable) hsend hk
    obtain ⟨v, -, hret⟩ := hreturns 1 false (by decide +kernel)
    exact ⟨m, hm, ((atomicity Demo.reachable 1 _ hsend).2.2 _ m rfl hm).1 v hret⟩

end Nexo
