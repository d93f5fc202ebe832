import Nexo.System.Account
import Nexo.Guarantees.Message
import Nexo.Lib.Erase

/-!
# What a send is charged

A send asks the limiter in two places: before it publishes a message it has found, and before the
transaction of a message it has not found. `send_charges` relates the tokens a call takes to what it
publishes and returns, in every reachable world. The order of the events is the rule every send
keeps (`obeys_send`); that a message it finds is the one stored under its key comes from the tables.
-/

namespace Nexo

open Relational Message Errcode List

variable {cfg : Config} {users : Table User String User.keys} {pid : ℕ} {inp : SendInput}
  {H H₀ : History cfg users} {ev : Event (system cfg users)}

/-! ### The account of a process -/

/-- The account of a process at a moment. -/
def account (pid : ℕ) (H : History cfg users) : Account := .ofEvents (own pid H)

/-- The rule of each call: only sends have one. -/
def Follows : Request → List (Event (system cfg users)) → Event (system cfg users) → Prop
  | .send inp => Keeps inp
  | _ => fun _ _ ↦ True

theorem obeys_handle (req : Request) :
    obeys (Follows req) ((system cfg users).prog req) false [.start req] fun v tx es ↦
      tx = false → Follows req es (.ret v) := by
  cases req with
  | send inp => exact obeys_bind (obeys_send rfl)
  | _ => exact obeys_of_forall (fun _ _ ↦ trivial) (fun _ _ _ _ ↦ trivial) _ _ _

/-- What the events of a send are known to be: it starts, and then keeps its rule. -/
structure SendTrail (inp : SendInput) (es : List (Event (system cfg users))) : Prop where
  first : es.getLast? = some (.start (.send inp))
  past : ∀ ev es', ev :: es' <:+ es → es' = [] ∨ Keeps inp es' ev

theorem sendTrail {w : World (system cfg users)} (h : Reachable (system cfg users) w)
    (hstart : Started w.trace pid (.send inp)) : SendTrail inp (own pid w.trace) := by
  obtain ⟨d, hd⟩ := id hstart
  have hp : ∃ p, w.procs pid = some p :=
    Option.ne_none_iff_exists'.1 ((Spec.inv_of_reachable spec_sound h).started _ hd pid rfl)
  obtain ⟨p, hp⟩ := hp
  obtain ⟨req, hreq⟩ := Spec.obeys_of_reachable spec_sound obeys_handle h hp
  obtain ⟨d', hd'⟩ := mem_own.1 (mem_of_getLast? hreq.first)
  obtain rfl : req = .send inp := started_unique (valid_of_reachable h) ⟨d', hd'⟩ hstart
  exact ⟨hreq.first, hreq.past⟩

namespace SendTrail

variable {es es' : List (Event (system cfg users))}

/-- **The account of a send adds up at every moment.** -/
theorem accounted (h : SendTrail inp es) : Accounted inp (.ofEvents es) := by
  obtain ⟨hfirst, hpast⟩ := h
  induction es with
  | nil => cases hfirst
  | cons ev es ih =>
    cases es with
    | nil =>
      cases hfirst
      exact .empty inp
    | cons ev' es =>
      have hold : Accounted inp (.ofEvents (ev' :: es)) :=
        ih (by rwa [getLast?_cons_cons] at hfirst)
          fun e es' hs ↦ hpast e es' (hs.trans (suffix_cons _ _))
      exact hold.add ((hpast ev _ (suffix_refl _)).resolve_left nofun)

/-- What a send has found it has found for good. -/
theorem found_later {es₀ : List (Event (system cfg users))} (h : SendTrail inp es₀)
    {ev : Event (system cfg users)} {m : Message} (hes : es <:+ es₀) (hs : ev :: es' <:+ es)
    (hm : (Account.ofEvents (ev :: es')).found = some m) : (Account.ofEvents es).found = some m := by
  induction es with
  | nil => simp at hs
  | cons e es ih =>
    rcases suffix_cons_iff.1 hs with heq | hs
    · rwa [← heq]
    have hold := ih ((suffix_cons _ _).trans hes) hs
    rcases h.past e es hes with rfl | hkeep
    · simp at hs
    · exact hkeep.found hold

end SendTrail

theorem own_suffix (hs : H₀ <:+ H) : own pid H₀ <:+ own pid H := by
  obtain ⟨new, rfl⟩ := hs
  rw [own, own, filter_append, map_append]
  exact suffix_append _ _

theorem own_cons_suffix {d : Db} (hs : ⟨some pid, ev, d⟩ :: H₀ <:+ H) :
    ev :: own pid H₀ <:+ own pid H := by
  rw [← own_cons_self]
  exact own_suffix hs

/-- What a send had done so far when it did something. -/
theorem keeps_of_entry (h : SendTrail inp (own pid H)) {d : Db} (hs : ⟨some pid, ev, d⟩ :: H₀ <:+ H)
    (hev : ∀ req, ev ≠ .start req) :
    SendRule inp (account pid H₀) ev := by
  have hown := own_cons_suffix hs
  rcases h.past ev _ hown with hnil | hkeep
  · have hlast : (ev :: own pid H₀).getLast? = (own pid H).getLast? := by
      obtain ⟨new, hnew⟩ := hown
      rw [← hnew, getLast?_append_of_ne_nil _ (cons_ne_nil _ _)]
    rw [hnil, h.first] at hlast
    exact absurd (Option.some.inj hlast) (hev _)
  · exact hkeep

/-- A send that has paid at some moment has paid once in the end. -/
theorem taken_later (h : SendTrail inp (own pid H)) (hs : H₀ <:+ H)
    (hpaid : (account pid H₀).taken = 1) : (account pid H).taken = 1 := by
  have hmono : (account pid H₀).taken ≤ (account pid H).taken :=
    (Account.grows_of_suffix (own_suffix hs)).taken
  have hle := h.accounted.taken_le.trans h.accounted.asked_le
  exact le_antisymm hle (hpaid ▸ hmono)

/-! ### A send that finds its message -/

theorem eq_of_mark {k : Mark} (h : mark ev = some k) :
    (k = .commit → ev = .commit) ∧ ∀ v, k = .returned v → ev = .ret v := by
  cases ev with
  | commit =>
    cases h
    exact ⟨fun _ ↦ rfl, fun v hv ↦ by cases hv⟩
  | ret v =>
    cases h
    exact ⟨fun hk ↦ (by cases hk), fun v' hv ↦ by rw [Mark.returned.inj hv]⟩
  | ext e r =>
    cases e <;> simp only [mark, Option.some.injEq, reduceCtorEq] at h <;> subst h <;>
      refine ⟨fun hk ↦ ?_, fun v hv ↦ ?_⟩ <;> contradiction
  | stmt s r =>
    cases s with
    | query q => cases h
    | update u =>
      cases r with
      | error e => cases h
      | ok v =>
        cases h
        exact ⟨fun hk ↦ (by cases hk), fun v hv ↦ by cases hv⟩
  | _ => cases h

section Found

variable {w : World (system cfg users)} {c s k : String} {m : Message} {d : Db}

section

variable (h : Reachable (system cfg users) w) (hstart : Started w.trace pid (.send inp))
include h hstart

/-- What it found is what it returns, and it stores nothing. -/
theorem returned_of_found
    (hfound : ⟨some pid, .stmt (.query (.getMessageByClientId c s k)) (.ok m), d⟩ :: H₀ <:+ w.trace) :
    LeftTables w.trace pid ∧ ∀ v, Returned w.trace pid v → v = .ack (.ok (ack m)) := by
  have htrail := sendTrail h hstart
  have hv := valid_of_reachable h
  have hm : (account pid w.trace).found = some m :=
    htrail.found_later (suffix_refl _) (own_cons_suffix hfound) rfl
  refine ⟨leftTables_of_marks hv rfl hstart fun hcommit ↦ ?_, fun v hret ↦ ?_⟩
  · obtain ⟨ev, d, H₁, hs, hmark, -⟩ := does_of_mark hv hstart hcommit
    obtain rfl := (eq_of_mark hmark).1 rfl
    have hyes := (Account.grows_of_suffix (own_cons_suffix hs)).committed rfl
    have hno := htrail.accounted.stored (by rw [← account, hm]; rfl)
    exact absurd (hno.symm.trans hyes) nofun
  · obtain ⟨ev, d', H₁, hs, hmark, -⟩ := does_of_mark hv hstart hret
    obtain rfl := (eq_of_mark hmark).2 v rfl
    rcases cons_suffix_cases hs hfound with heq | hbefore | hafter
    · cases (cons.inj heq).1
    · -- it looks nothing up once it has returned
      have hnone := (keeps_of_entry htrail hfound nofun).2.2.1
      have hsome := (Account.grows_of_suffix (own_cons_suffix hbefore)).returned rfl
      rw [← account, hnone] at hsome
      cases hsome
    · exact keeps_of_entry htrail hs nofun m (htrail.found_later
        (own_suffix ((suffix_cons _ _).trans hs)) (own_cons_suffix hafter) rfl)

/-- It can always return. -/
theorem returns_of_found
    (hfound : ⟨some pid, .stmt (.query (.getMessageByClientId c s k)) (.ok m), d⟩ :: H₀ <:+ w.trace) :
    ∃ w' new, Relation.ReflTransGen (Step (system cfg users)) w w' ∧ w'.trace = new ++ w.trace ∧
      (∀ e ∈ new, e.who = some pid) ∧ Returned w'.trace pid (.ack (.ok (ack m))) := by
  obtain ⟨d₀, hd₀⟩ := id hstart
  rcases running_or_returned h hd₀ rfl with ⟨p, tx, hp⟩ | ⟨v, d', hret⟩
  · obtain ⟨w', new, v, hsteps, hnew, htrace⟩ :=
      canReturn spec_sound (answers 0 "") p (Spec.inv_of_reachable spec_sound h) hp
    have hs : w.trace <:+ w'.trace := suffix_of_steps hsteps
    have hret : Returned w'.trace pid v := by
      rw [Returned, htrace, marks_cons_self]
      exact mem_cons_self
    obtain rfl := (returned_of_found (h.trans hsteps) (hstart.mono hs) (hfound.trans hs)).2 v hret
    refine ⟨w', _ :: new, hsteps, htrace, ?_, hret⟩
    rintro e (- | ⟨-, he⟩)
    · rfl
    · exact hnew e he
  · have hret : Returned w.trace pid v := mem_marks.2 ⟨_, hret, rfl, rfl⟩
    obtain rfl := (returned_of_found h hstart hfound).2 v hret
    exact ⟨w, [], .refl, rfl, by simp, hret⟩

/-- What it found was stored under its key. -/
theorem storedFor_of_found
    (hfound : ⟨some pid, .stmt (.query (.getMessageByClientId c s k)) (.ok m), d⟩ :: H₀ <:+ w.trace) :
    StoredFor (Trace.db H₀) inp m := by
  have hsaw : SawAt w.trace pid (.getMessageByClientId c s k) (.ok m) H₀ := ⟨d, hfound⟩
  have hmem : m ∈ (Trace.db H₀).messages.rows := by
    rcases hsaw.result (valid_of_reachable h) with hr | hr
    · exact (Table.get_eq_some_iff.1 (one_eq_ok.1 hr.symm)).1
    · cases hr
  -- the acknowledgement it leads to names the message stored under the key
  obtain ⟨w', new, hsteps, -, -, hret⟩ := returns_of_found h hstart hfound
  have hv' := valid_of_reachable (h.trans hsteps)
  have hs : w.trace <:+ w'.trace := suffix_of_steps hsteps
  obtain ⟨m', hm', hack⟩ := (sendRun hv' (hstart.mono hs)).of_ack hv' hret
  have hlater : (Trace.db w'.trace).messages.get (.seq m.conversationId m.seq) = some m :=
    messages_persist hv' (((suffix_cons _ _).trans hfound).trans hs) (mem_rows_iff.1 hmem)
  obtain ⟨hmem', hkey⟩ := storedFor_iff.1 hm'
  have heq : some m = some m' := by
    rw [← hlater, ← mem_rows_iff.1 hmem', show m.conversationId = m'.conversationId from
      congrArg Ack.conversationId hack, show m.seq = m'.seq from congrArg Ack.seq hack]
  cases heq
  exact storedFor_iff.2 ⟨hmem, hkey⟩

end

end Found

/-! ### The result -/

/-- **Send quota.** For every send of every reachable world, whatever it was answered and whatever
else ran: it takes at most one token, from its sender's bucket, and none if it is unlimited; it
publishes at most once, and a limited one has then taken exactly one token; a retry that finds the
group dismissed or its sender gone takes none; a limited one that looks its message up again after
the transaction has paid once and pays no more; and one that finds its message in either lookup has
found what was stored under its key, leaves the tables alone, and returns its acknowledgement, which
it can always do. -/
theorem send_charges {w : World (system cfg users)} (h : Reachable (system cfg users) w) (pid : ℕ)
    (inp : SendInput) (hstart : Started w.trace pid (.send inp)) :
    ((account pid w.trace).taken ≤ 1 ∧
      (∀ s now r d, ⟨some pid, .ext (.allow s now) r, d⟩ ∈ w.trace → s = inp.senderId) ∧
      (inp.unlimited = true → (account pid w.trace).taken = 0)) ∧
    ((account pid w.trace).published ≤ 1 ∧
      ∀ ev r d H₀, ⟨some pid, .ext (.publish ev) r, d⟩ :: H₀ <:+ w.trace → inp.unlimited = false →
        (account pid H₀).taken = 1 ∧ (account pid w.trace).taken = 1) ∧
    ((account pid w.trace).retry = true → (account pid w.trace).denied = true →
      (account pid w.trace).taken = 0) ∧
    (∀ c s k r d H₀,
      ⟨some pid, .stmt (.query (.getMessageByClientId c s k)) r, d⟩ :: H₀ <:+ w.trace →
      (account pid H₀).lookups ≠ 0 → inp.unlimited = false →
        (account pid H₀).taken = 1 ∧ (account pid w.trace).taken = 1) ∧
    (∀ c s k m d H₀,
      ⟨some pid, .stmt (.query (.getMessageByClientId c s k)) (.ok m), d⟩ :: H₀ <:+ w.trace →
        StoredFor (Trace.db H₀) inp m ∧ LeftTables w.trace pid ∧
        (∀ v, Returned w.trace pid v → v = .ack (.ok (ack m))) ∧
        ∃ w' new, Relation.ReflTransGen (Step (system cfg users)) w w' ∧
          w'.trace = new ++ w.trace ∧ (∀ e ∈ new, e.who = some pid) ∧
          Returned w'.trace pid (.ack (.ok (ack m)))) := by
  have htrail := sendTrail h hstart
  have hacc : Accounted inp (account pid w.trace) := htrail.accounted
  have hle := hacc.taken_le
  refine ⟨⟨hle.trans hacc.asked_le, fun s now r d hd ↦ ?_, fun hu ↦ ?_⟩,
    ⟨hacc.published_le, fun ev r d H₀ hs hlimited ↦ ?_⟩, fun hr hd ↦ ?_,
    fun c s k r d H₀ hs hsecond hlimited ↦ ?_, fun c s k m d H₀ hs ↦ ?_⟩
  · obtain ⟨new, H₀, htrace⟩ := List.append_of_mem hd
    exact (keeps_of_entry htrail ⟨new, htrace.symm⟩ nofun).1
  · exact Nat.le_zero.1 (hacc.unlimited hu ▸ hle)
  · have hpaid := (keeps_of_entry htrail hs nofun).2 hlimited
    exact ⟨hpaid, taken_later htrail ((List.suffix_cons _ _).trans hs) hpaid⟩
  · exact Nat.le_zero.1 (hacc.denied hr hd ▸ hle)
  · have hpaid := (keeps_of_entry htrail hs nofun).2.2.2.2 hsecond hlimited
    exact ⟨hpaid, taken_later htrail ((List.suffix_cons _ _).trans hs) hpaid⟩
  · obtain ⟨hleft, hret⟩ := returned_of_found h hstart hs
    exact ⟨storedFor_of_found h hstart hs, hleft, hret, returns_of_found h hstart hs⟩

namespace ChargesDemo

/-- Is this a lookup of the process that found a message? -/
def findsMessage (pid : ℕ) : Entry (system cfg users) → Bool
  | ⟨who, .stmt (.query (.getMessageByClientId _ _ _)) r, _⟩ =>
    decide (who = some pid) && Except.isOk (r : Except StoreErr Message)
  | _ => false

theorem exists_of_findsMessage {e : Entry (system cfg users)} (h : findsMessage pid e = true) :
    ∃ c s k m d, e = ⟨some pid, .stmt (.query (.getMessageByClientId c s k)) (.ok m), d⟩ := by
  obtain ⟨who, ev, d⟩ := e
  cases ev with
  | stmt s r =>
    cases s with
    | update u => cases h
    | query q =>
      cases q with
      | getMessageByClientId c s k =>
        obtain ⟨hwho, hr⟩ := Bool.and_eq_true_iff.1 h
        obtain rfl := of_decide_eq_true hwho
        cases r with
        | error e => cases hr
        | ok m => exact ⟨c, s, k, m, d, rfl⟩
      | _ => cases h
  | _ => cases h

end ChargesDemo

open ChargesDemo in
/-- The retry of the example is charged once for its republish. -/
theorem send_charges_demo :
    ((account 5 Demo.world.trace).retry = true ∧ (account 5 Demo.world.trace).published = 1 ∧
      (account 5 Demo.world.trace).taken = 1 ∧ (account 5 Demo.world.trace).taken ≤ 1) ∧
    ∃ (m : Message) (H₀ : History Demo.config Demo.accounts),
      StoredFor (Trace.db H₀) (Demo.message "u___1" "k1") m ∧ LeftTables Demo.world.trace 5 ∧
      ∀ v, Returned Demo.world.trace 5 v → v = .ack (.ok (ack m)) := by
  have hsend : Started Demo.world.trace 5 (.send (Demo.message "u___1" "k1")) := by decide +kernel
  have hcharges := send_charges Demo.reachable 5 _ hsend
  refine ⟨⟨by decide +kernel, by decide +kernel, by decide +kernel, hcharges.1.1⟩, ?_⟩
  have hany : Demo.world.trace.any (findsMessage 5) = true := by decide +kernel
  obtain ⟨e, he, hfind⟩ := List.any_eq_true.1 hany
  obtain ⟨c, s, k, m, d, rfl⟩ := exists_of_findsMessage hfind
  obtain ⟨new, H₀, htrace⟩ := List.append_of_mem he
  obtain ⟨hstored, hleft, hret, -⟩ := hcharges.2.2.2.2 c s k m d H₀ ⟨new, htrace.symm⟩
  exact ⟨m, H₀, hstored, hleft, hret⟩

end Nexo
