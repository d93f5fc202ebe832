import Nexo.System.Runs
import Nexo.Lib.Trail

/-!
# The account of a send

What a `Send` asks of the limiter and what it publishes depend on the answers it gets, not on the
tables: the order of its events is in its program. An `Account` sums the events up, `SendRule` says
which event may come next, and every send keeps the rule, whatever it is answered (`obeys_send`).
The invariant `Accounted` follows event by event.
-/

namespace Nexo

open Relational Message Errcode

variable {cfg : Config} {users : Table User String User.keys}

/-! ### Accounts -/

/-- What the events of a call come to. -/
structure Account where
  /-- How often the limiter was asked. -/
  asked : ℕ := 0
  /-- How often it gave a token. -/
  taken : ℕ := 0
  published : ℕ := 0
  /-- How often the message was looked up by its idempotency key. -/
  lookups : ℕ := 0
  /-- The message found. -/
  found : Option Message := none
  /-- It was found by the first lookup. -/
  retry : Bool := false
  /-- The group was found dismissed, or the sender's membership was not found. -/
  denied : Bool := false
  committed : Bool := false
  returned : Option Response := none

namespace Account

/-- One event more. -/
def add (a : Account) : Event (system cfg users) → Account
  | .ext (.allow _ _) r =>
    let token : Bool := r
    { a with asked := a.asked + 1, taken := a.taken + token.toNat }
  | .ext (.publish _) _ => { a with published := a.published + 1 }
  | .stmt (.query (.getMessageByClientId _ _ _)) r =>
    match (r : Except StoreErr Message) with
    | .ok m => { a with lookups := a.lookups + 1, found := some m, retry := a.lookups = 0 }
    | .error _ => { a with lookups := a.lookups + 1 }
  | .stmt (.query (.getGroup _)) r =>
    match (r : Except StoreErr Group) with
    | .ok g => { a with denied := a.denied || g.status = groupStatusDismissed }
    | .error _ => a
  | .stmt (.query (.getGroupMember _ _)) r =>
    match (r : Except StoreErr GroupMember) with
    | .ok _ => a
    | .error _ => { a with denied := true }
  | .commit => { a with committed := true }
  | .ret v => { a with returned := some v }
  | _ => a

/-- The account of a list of events, newest first. -/
def ofEvents : List (Event (system cfg users)) → Account
  | [] => {}
  | ev :: es => (ofEvents es).add ev

end Account

/-- **What a send may do next**, given its account. -/
def SendRule (inp : SendInput) (a : Account) : Event (system cfg users) → Prop
  /- It asks for a token once, for its sender, unless it is unlimited or was denied a republish. -/
  | .ext (.allow s _) _ => s = inp.senderId ∧ inp.unlimited = false ∧ a.asked = 0 ∧
      (a.retry = true → a.denied = false)
  /- It publishes once, and a limited one has paid. -/
  | .ext (.publish _) _ => a.published = 0 ∧ (inp.unlimited = false → a.taken = 1)
  /- It looks its message up until it finds it, first of all without a token; a limited one has paid
  before the second time. -/
  | .stmt (.query (.getMessageByClientId _ _ _)) _ => a.found = none ∧ a.committed = false ∧
      a.returned = none ∧ (a.lookups = 0 → a.asked = 0) ∧
      (a.lookups ≠ 0 → inp.unlimited = false → a.taken = 1)
  | .stmt (.query (.getGroup _)) _ => a.asked = 0
  | .stmt (.query (.getGroupMember _ _)) _ => a.asked = 0
  | .commit => a.found = none
  | .ret v => ∀ m, a.found = some m → v = .ack (.ok (ack m))
  | _ => True

/-! ### Every send keeps the rule -/

/-- The rule, on lists of events. -/
abbrev Keeps (inp : SendInput) (es : List (Event (system cfg users)))
    (ev : Event (system cfg users)) : Prop :=
  SendRule inp (.ofEvents es) ev

/-- The rule at the return of a send. -/
abbrev Answers (inp : SendInput) (r : Except Err Ack) (tx : Bool)
    (es : List (Event (system cfg users))) : Prop :=
  tx = false → Keeps inp es (.ret (.ack r))

section Statements

variable {α : Type} {R : α → Prop}

theorem statements_query {q : Query} {f : Except StoreErr q.Val → Call α}
    (hf : ∀ r, Statements R (f r)) : Statements R (query q >>= f) :=
  .stmt hf

theorem statements_update {u : Update} {f : Except StoreErr u.Val → Call α}
    (hf : ∀ r, Statements R (f r)) : Statements R (update u >>= f) :=
  .stmt hf

/-- The membership check. -/
theorem statements_checkSender (inp : SendInput) : Statements (fun _ ↦ True) (checkSender inp) := by
  refine .ite (statements_query fun r ↦ ?_) (.ret trivial)
  cases r with
  | error e => exact .ret trivial
  | ok g =>
    refine .ite (.ret trivial) (statements_query fun r ↦ ?_)
    match r with
    | .error .notFound | .error .duplicate | .error .failed => exact .ret trivial
    | .ok _ => exact .ret trivial

theorem statements_touchConversations (inp : SendInput) (conv : String) (seq : Int) (now : Time) :
    Statements (fun _ ↦ True) (touchConversations inp conv seq now) := by
  refine .ite (statements_update fun r ↦ ?_) (statements_update fun r ↦ ?_)
  · cases r with
    | error e => exact .ret trivial
    | ok _ => exact .stmt fun _ ↦ .ret trivial
  · cases r with
    | error e => exact .ret trivial
    | ok _ => exact .ite (.ret trivial) (.stmt fun _ ↦ .ret trivial)

/-- The callback of a send reports a duplicate with an error, so that it is rolled back. -/
theorem statements_sendTx (inp : SendInput) (conv : String) (msg : Message) (now : Time) :
    Statements (fun r ↦ r.2.1 = true → ∃ err, r.1 = .error err) (sendTx inp conv msg now) := by
  have hlock : Statements (fun _ ↦ True)
      (lockConversation conv inp.sessionType inp.groupId now) := by
    refine statements_update fun r ↦ ?_
    cases r with
    | error e => exact .ret trivial
    | ok _ => exact .stmt fun _ ↦ .ret trivial
  refine hlock.bind fun r _ ↦ ?_
  cases r with
  | error e => exact .ret nofun
  | ok c =>
    refine (statements_checkSender inp).bind fun r _ ↦ ?_
    cases r with
    | error err => exact .ret nofun
    | ok _ =>
      refine statements_update fun r ↦ ?_
      match r with
      | .error e => exact .ret nofun
      | .ok false => exact .ret fun _ ↦ ⟨_, rfl⟩
      | .ok true =>
        refine statements_update fun r ↦ ?_
        cases r with
        | error e => exact .ret nofun
        | ok _ =>
          refine (statements_touchConversations _ _ _ _).bind fun r _ ↦ ?_
          cases r with
          | error | ok => exact .ret nofun

/-- A call to the outside. -/
theorem obeys_ext {e : Ext} {f : e.Res → Call α}
    {A : List (Event (system cfg users)) → Event (system cfg users) → Prop}
    {es : List (Event (system cfg users))} {Q : α → Bool → List (Event (system cfg users)) → Prop}
    (hev : ∀ r, A es (.ext e r)) (h : ∀ r, obeys A (f r) false (.ext e r :: es) Q) :
    obeys A (ext e >>= f) false es Q :=
  fun r ↦ ⟨hev r, h r⟩

/-- `WithTx` around statements. -/
theorem obeys_withTx {σ : Type} {init : σ} {fn : Call (Except Err Unit × σ)}
    {A : List (Event (system cfg users)) → Event (system cfg users) → Prop}
    {es : List (Event (system cfg users))} {R : Except Err Unit × σ → Prop}
    {Q : Except Err Unit × σ → Bool → List (Event (system cfg users)) → Prop}
    (hfn : Statements R fn) (hbegin : Q (.error (.store .failed), init) false es)
    (herr : ∀ err vars, R (.error err, vars) → Q (.error err, vars) false es)
    (hok : ∀ vars, R (.ok (), vars) → A es .commit ∧ Q (.ok (), vars) false (.commit :: es) ∧
      Q (.error (.store .failed), vars) false es) :
    obeys A (withTx init fn) false es Q := by
  refine ⟨?_, hbegin⟩
  change obeys A (fn >>= _) true es Q
  refine obeys_bind (hfn.obeys ?_)
  rintro ⟨r, vars⟩ hr
  cases r with
  | error err => exact herr err vars hr
  | ok _ => exact hok vars hr

end Statements

/-! ### The parts of a send -/

section Send

variable {inp : SendInput} {es : List (Event (system cfg users))} {m : Message} {inp' : SendInput}
  {a : Account}

/-- A retry that has been denied its republish or not. -/
abbrev found (m : Message) (denied : Bool) : Account :=
  { lookups := 1, found := some m, retry := true, denied := denied }

theorem obeys_checkGroupSend {g : Group} (u : String)
    (ha : Account.ofEvents es = found m (g.status = groupStatusDismissed)) :
    obeys (Keeps inp) (checkGroupSend g u) false es fun r tx es' ↦ tx = false ∧
      ∃ d, Account.ofEvents es' = found m d ∧ (r = .ok () → d = false) := by
  refine obeys_ite (fun hs ↦ ⟨rfl, _, ha, nofun⟩) fun hs r ↦ ⟨?_, ?_⟩
  · rw [Keeps, ha]
    rfl
  · match r with
    | .error .notFound | .error .duplicate | .error .failed =>
      exact ⟨rfl, true, by simp [Account.ofEvents, Account.add, ha], nofun⟩
    | .ok _ => exact ⟨rfl, false, by simp [Account.ofEvents, Account.add, ha, hs], fun _ ↦ rfl⟩

/-- Whether the group row that was read is dismissed. -/
def dismissed : Option Group → Bool
  | some g => g.status = groupStatusDismissed
  | none => false

theorem obeys_republishAllowed {g : Option Group}
    (hg : inp'.sessionType ≠ conversationGroup → g = none)
    (ha : Account.ofEvents es = found m (dismissed g)) :
    obeys (Keeps inp) (republishAllowed inp' g) false es fun b tx es' ↦ tx = false ∧
      ∃ d, Account.ofEvents es' = found m d ∧ (b = true → d = false) := by
  refine obeys_ite (fun hs ↦ ⟨rfl, _, ha, fun _ ↦ ?_⟩) fun hs ↦ ?_
  · rw [hg hs]
    rfl
  cases g with
  | none => exact ⟨rfl, _, ha, nofun⟩
  | some g =>
    refine obeys_bind_mono ?_ (obeys_checkGroupSend inp'.senderId ha)
    rintro r tx es' ⟨rfl, d, hd, hr⟩
    cases r with
    | ok _ => exact ⟨rfl, d, hd, fun _ ↦ hr rfl⟩
    | error _ => exact ⟨rfl, d, hd, nofun⟩

/-- A found message is acknowledged. -/
theorem answers_found (ha : Account.ofEvents es = a) (hm : a.found = some m) :
    Answers inp (.ok (ack m)) false es := by
  intro _ m' hm'
  rw [ha, hm] at hm'
  rw [Option.some.inj hm']

/-- A found message is published again, and acknowledged. -/
theorem obeys_republish {conn : String} (ha : Account.ofEvents es = a) (hm : a.found = some m)
    (hp : a.published = 0) (hpaid : inp.unlimited = false → a.taken = 1) :
    obeys (Keeps inp) (do
      republish m conn
      return .ok (ack m)) false es (Answers inp) := by
  intro r
  refine ⟨?_, answers_found (a := { a with published := a.published + 1 }) ?_ hm⟩
  · rw [Keeps, ha]
    exact ⟨hp, hpaid⟩
  · simp [Account.ofEvents, Account.add, ha]

theorem obeys_sendRetry {g : Option Group} (hsender : inp'.senderId = inp.senderId)
    (hlimit : inp'.unlimited = inp.unlimited) (hg : inp'.sessionType ≠ conversationGroup → g = none)
    (ha : Account.ofEvents es = found m (dismissed g)) :
    obeys (Keeps inp) (sendRetry inp' g m) false es (Answers inp) := by
  refine obeys_bind_mono ?_ (obeys_republishAllowed hg ha)
  rintro b tx es₁ ⟨rfl, d, ha₁, hb⟩
  cases b with
  | false => exact answers_found ha₁ rfl
  | true =>
    obtain rfl := hb rfl
    refine obeys_bind (obeys_ite (fun hu ↦ ?_) fun hu now ↦ ⟨trivial, fun token ↦ ⟨?_, ?_⟩⟩)
    · exact obeys_republish ha₁ rfl rfl fun hl ↦ by rw [hlimit, hl] at hu; cases hu
    · have hfree : inp.unlimited = false := by rw [← hlimit]; simpa using hu
      simp only [Keeps, Account.ofEvents, Account.add, ha₁]
      exact ⟨hsender, hfree, rfl, fun _ ↦ rfl⟩
    · have ha₂ : ∀ token : Bool, Account.ofEvents
          (.ext (.allow inp'.senderId now) token :: .ext .now now :: es₁) =
          { found m false with asked := 1, taken := token.toNat } := by
        simp [Account.ofEvents, Account.add, ha₁]
      match token with
      | false => exact answers_found (ha₂ false) rfl
      | true => exact obeys_republish (ha₂ true) rfl rfl fun _ ↦ rfl

/-- The account of a first attempt that has its token or needs none. -/
structure Paid (inp : SendInput) (a : Account) : Prop where
  found : a.found = none
  lookups : a.lookups = 1
  published : a.published = 0
  returned : a.returned = none
  taken : inp.unlimited = false → a.taken = 1

theorem obeys_sendDuplicate {conv : String} (ha : Account.ofEvents es = a) (hpaid : Paid inp a)
    (hcommit : a.committed = false) :
    obeys (Keeps inp) (sendDuplicate inp' conv) false es (Answers inp) := by
  intro r
  refine ⟨?_, ?_⟩
  · rw [Keeps, ha]
    refine ⟨hpaid.found, hcommit, hpaid.returned, fun h ↦ ?_, fun _ ↦ hpaid.taken⟩
    rw [hpaid.lookups] at h
    cases h
  have hnone : ∀ {e err}, Answers inp (.error err) false
      (.stmt (.query (.getMessageByClientId conv inp'.senderId inp'.clientMsgId)) (.error e) ::
        es) := by
    intro e err _ m hm
    rw [Account.ofEvents, ha, Account.add, hpaid.found] at hm
    cases hm
  match r with
  | .error .notFound | .error .duplicate | .error .failed => exact hnone
  | .ok m =>
    have ha' : Account.ofEvents
        (.stmt (.query (.getMessageByClientId conv inp'.senderId inp'.clientMsgId)) (.ok m) :: es) =
        { a with lookups := 2, found := some m, retry := false } := by
      simp [Account.ofEvents, Account.add, ha, hpaid.lookups]
    exact obeys_republish ha' rfl hpaid.published hpaid.taken

theorem obeys_sendCommitted {msg : Message} (ha : Account.ofEvents es = a) (hpaid : Paid inp a) :
    obeys (Keeps inp) (sendCommitted cfg inp' msg) false es (Answers inp) := by
  intro r
  refine ⟨?_, obeys_ite (fun _ r ↦ ⟨trivial, fun _ m hm ↦ ?_⟩) fun _ _ m hm ↦ ?_⟩
  · rw [Keeps, ha]
    exact ⟨hpaid.published, hpaid.taken⟩
  · simp [Account.ofEvents, Account.add, ha, hpaid.found] at hm
  · simp [Account.ofEvents, Account.add, ha, hpaid.found] at hm

/-- A first attempt with its token: a fresh id, the transaction and what follows it. -/
theorem obeys_paid {conv : String} {now : Time} (ha : Account.ofEvents es = a) (hpaid : Paid inp a)
    (hcommit : a.committed = false) :
    obeys (Keeps inp) (do
      let serverMsgId ← ext .newUuid
      let msg := newMessage inp' conv serverMsgId
      match ← withTx (false, msg) (sendTx inp' conv msg now) with
      | (_, true, _) => sendDuplicate inp' conv
      | (.error err, false, _) => return .error (err.or errMessageSendFailed)
      | (.ok (), false, msg) => sendCommitted cfg inp' msg) false es (Answers inp) := by
  refine obeys_ext (fun _ ↦ trivial) fun id ↦ ?_
  have ha' : Account.ofEvents (.ext .newUuid id :: es) = a := by
    rw [Account.ofEvents, ha]
    rfl
  have herr : ∀ {err}, Answers inp (.error err) false (.ext .newUuid id :: es) := by
    intro err _ m hm
    rw [ha', hpaid.found] at hm
    cases hm
  refine obeys_bind (obeys_withTx (statements_sendTx _ _ _ _) herr ?_ ?_)
  · rintro err ⟨dup, msg⟩ -
    cases dup with
    | true => exact obeys_sendDuplicate ha' hpaid hcommit
    | false => exact herr
  · rintro ⟨dup, msg⟩ hdup
    cases dup with
    | true =>
      obtain ⟨err, herr⟩ := hdup rfl
      cases herr
    | false =>
      refine ⟨?_, ?_, herr⟩
      · rw [Keeps, ha']
        exact hpaid.found
      · refine obeys_sendCommitted (a := { a with committed := true }) ?_
          ⟨hpaid.found, hpaid.lookups, hpaid.published, hpaid.returned, hpaid.taken⟩
        rw [Account.ofEvents, ha']
        rfl

theorem obeys_sendNew {conv : String} {d : Bool} (hsender : inp'.senderId = inp.senderId)
    (hlimit : inp'.unlimited = inp.unlimited)
    (ha : Account.ofEvents es = { lookups := 1, denied := d }) :
    obeys (Keeps inp) (sendNew cfg inp' conv) false es (Answers inp) := by
  refine obeys_ext (fun _ ↦ trivial) fun now ↦ ?_
  have ha₁ : Account.ofEvents (.ext .now now :: es) = { lookups := 1, denied := d } := by
    rw [Account.ofEvents, ha]
    rfl
  refine obeys_bind (obeys_ite (fun hu ↦ ?_) fun hu token ↦ ⟨?_, ?_⟩)
  · refine obeys_paid ha₁ ⟨rfl, rfl, rfl, rfl, fun hl ↦ ?_⟩ rfl
    rw [hlimit, hl] at hu
    cases hu
  · have hfree : inp.unlimited = false := by rw [← hlimit]; simpa using hu
    rw [Keeps, ha₁]
    exact ⟨hsender, hfree, rfl, nofun⟩
  · have ha₂ : ∀ token : Bool, Account.ofEvents
        (.ext (.allow inp'.senderId now) token :: .ext .now now :: es) =
        { asked := 1, taken := token.toNat, lookups := 1, denied := d } := by
      simp [Account.ofEvents, Account.add, ha]
    match token with
    | false =>
      intro _ m hm
      rw [ha₂] at hm
      cases hm
    | true => exact obeys_paid (ha₂ true) ⟨rfl, rfl, rfl, rfl, fun _ ↦ rfl⟩ rfl

theorem obeys_normalizeDestination
    (hdest : inp.sessionType = conversationSingle ∨ inp.sessionType = conversationGroup)
    (ha : Account.ofEvents es = {}) :
    obeys (Keeps inp) (normalizeDestination inp) false es fun r tx es' ↦ tx = false ∧
      ∃ d, Account.ofEvents es' = { denied := d } ∧ ∀ conv inp' g, r = .ok (conv, inp', g) →
        inp'.senderId = inp.senderId ∧ inp'.unlimited = inp.unlimited ∧
        (inp'.sessionType ≠ conversationGroup → g = none) ∧ d = dismissed g := by
  refine obeys_ite (fun hs r ↦ ⟨trivial, ?_⟩) fun hs r ↦ ⟨?_, ?_⟩
  · have ha' : ∀ {r}, Account.ofEvents (.stmt (.query (.getUser inp.recvId)) r :: es) =
        { denied := false } := by
      simp [Account.ofEvents, Account.add, ha]
    match r with
    | .error .notFound | .error .duplicate | .error .failed => exact ⟨rfl, _, ha', nofun⟩
    | .ok u =>
      refine ⟨rfl, _, ha', fun conv inp' g h ↦ ?_⟩
      cases h
      exact ⟨rfl, rfl, fun _ ↦ rfl, rfl⟩
  · rw [Keeps, ha]
    rfl
  · have hgroup : inp.sessionType = conversationGroup := hdest.resolve_left hs
    have ha' : ∀ {e}, Account.ofEvents (.stmt (.query (.getGroup inp.groupId)) (.error e) :: es) =
        { denied := false } := by
      simp [Account.ofEvents, Account.add, ha]
    match r with
    | .error .notFound | .error .duplicate | .error .failed => exact ⟨rfl, _, ha', nofun⟩
    | .ok g =>
      refine ⟨rfl, dismissed (some g), ?_, fun conv inp' g' h ↦ ?_⟩
      · simp [Account.ofEvents, Account.add, ha, dismissed]
      · cases h
        exact ⟨rfl, rfl, fun hne ↦ absurd hgroup hne, rfl⟩

/-- **Every send keeps the rule.** -/
theorem obeys_send (ha : Account.ofEvents es = {}) :
    obeys (Keeps inp) (send cfg inp) false es (Answers inp) := by
  have hnone : ∀ {es' : List (Event (system cfg users))} {err},
      (Account.ofEvents es').found = none →
      Answers inp (.error err) false es' := by
    intro es' err hes' _ m hm
    rw [hes'] at hm
    cases hm
  unfold send
  rcases hval : validate cfg inp with - | err
  swap
  · exact hnone (by rw [ha])
  have hdest := (of_validate hval).imp_left And.left
  refine obeys_bind_mono ?_ (obeys_normalizeDestination hdest ha)
  rintro r tx es₁ ⟨rfl, d, ha₁, hr⟩
  match r, hr with
  | .error err, _ => exact hnone (by rw [ha₁])
  | .ok (conv, inp', g), hr =>
    obtain ⟨hsender, hlimit, hg, rfl⟩ := hr conv inp' g rfl
    refine fun r ↦ ⟨?_, ?_⟩
    · rw [Keeps, ha₁]
      exact ⟨rfl, rfl, rfl, fun _ ↦ rfl, fun h ↦ absurd rfl h⟩
    match r with
    | .ok m =>
      refine obeys_sendRetry hsender hlimit hg ?_
      simp [Account.ofEvents, Account.add, ha₁]
    | .error .notFound =>
      refine obeys_sendNew hsender hlimit (d := dismissed g) ?_
      simp [Account.ofEvents, Account.add, ha₁]
    | .error .duplicate | .error .failed => exact hnone (by simp [Account.ofEvents, Account.add, ha₁])

end Send

/-! ### What the rule keeps -/

/-- **The account of a send adds up.** -/
structure Accounted (inp : SendInput) (a : Account) : Prop where
  asked_le : a.asked ≤ 1
  taken_le : a.taken ≤ a.asked
  unlimited : inp.unlimited = true → a.asked = 0
  published_le : a.published ≤ 1
  /-- A denied retry does not ask. -/
  denied : a.retry = true → a.denied = true → a.asked = 0
  /-- A send that finds its message stores none. -/
  stored : a.found.isSome → a.committed = false

theorem Accounted.empty (inp : SendInput) : Accounted inp {} where
  asked_le := by simp
  taken_le := by simp
  unlimited _ := rfl
  published_le := by simp
  denied := nofun
  stored := nofun

/-- One event. -/
theorem Accounted.add {inp : SendInput} {a : Account} {ev : Event (system cfg users)}
    (h : Accounted inp a) (hev : SendRule inp a ev) : Accounted inp (a.add ev) := by
  cases ev with
  | ext e r =>
    cases e with
    | allow s now =>
      obtain ⟨-, hlimited, hasked, hretry⟩ := hev
      have htaken : a.taken = 0 := by have := h.taken_le; omega
      have hle : (r : Bool).toNat ≤ 1 := Bool.toNat_le r
      refine { h with asked_le := ?_, taken_le := ?_, unlimited := ?_, denied := ?_ }
      · change a.asked + 1 ≤ 1
        omega
      · change a.taken + (r : Bool).toNat ≤ a.asked + 1
        omega
      · intro hu
        rw [hu] at hlimited
        cases hlimited
      · intro hr hd
        have hfree : a.denied = false := hretry hr
        exact absurd (hfree.symm.trans hd) nofun
    | publish ev =>
      refine { h with published_le := ?_ }
      change a.published + 1 ≤ 1
      rw [hev.1]
    | _ => exact h
  | stmt s r =>
    cases s with
    | update u => exact h
    | query q =>
      cases q with
      | getMessageByClientId c s k =>
        obtain ⟨-, hcommit, -, hfirst, -⟩ := hev
        match r with
        | .error _ => exact { h with }
        | .ok m =>
          exact { h with
            denied := fun hr _ ↦ hfirst (of_decide_eq_true hr), stored := fun _ ↦ hcommit }
      | getGroup g =>
        match r with
        | .error _ => exact h
        | .ok _ => exact { h with denied := fun _ _ ↦ hev }
      | getGroupMember g u =>
        match r with
        | .error _ => exact { h with denied := fun _ _ ↦ hev }
        | .ok _ => exact h
      | _ => exact h
  | commit =>
    refine { h with stored := fun hf ↦ ?_ }
    have hnone : a.found = none := hev
    change a.found.isSome = true at hf
    rw [hnone] at hf
    cases hf
  | ret v => exact { h with }
  | _ => exact h

/-- Nothing is taken off an account. -/
structure Account.Grows (a b : Account) : Prop where
  taken : a.taken ≤ b.taken
  committed : a.committed = true → b.committed = true
  returned : a.returned.isSome → b.returned.isSome

theorem Account.Grows.refl (a : Account) : a.Grows a := ⟨le_rfl, id, id⟩

theorem Account.grows_add (a : Account) (ev : Event (system cfg users)) : a.Grows (a.add ev) := by
  cases ev with
  | ext e r =>
    cases e with
    | allow s now => exact ⟨Nat.le_add_right _ _, id, id⟩
    | publish ev => exact ⟨le_rfl, id, id⟩
    | _ => exact .refl a
  | stmt s r =>
    cases s with
    | update u => exact .refl a
    | query q => cases q <;> first | exact .refl a | (cases r <;> exact ⟨le_rfl, id, id⟩)
  | commit => exact ⟨le_rfl, fun _ ↦ rfl, id⟩
  | ret v => exact ⟨le_rfl, id, fun _ ↦ rfl⟩
  | _ => exact .refl a

theorem Account.grows_of_suffix {es es' : List (Event (system cfg users))} (hs : es <:+ es') :
    (Account.ofEvents es).Grows (Account.ofEvents es') := by
  induction es' with
  | nil => rw [List.suffix_nil.1 hs]; exact .refl _
  | cons ev es' ih =>
    rcases List.suffix_cons_iff.1 hs with rfl | hs
    · exact .refl _
    · have hold := ih hs
      have hnew := Account.grows_add (Account.ofEvents es') ev
      exact ⟨hold.taken.trans hnew.taken, fun h ↦ hnew.committed (hold.committed h),
        fun h ↦ hnew.returned (hold.returned h)⟩

/-- What is found stays found. -/
theorem SendRule.found {inp : SendInput} {a : Account} {ev : Event (system cfg users)} {m : Message}
    (hev : SendRule inp a ev) (hm : a.found = some m) : (a.add ev).found = some m := by
  cases ev with
  | ext e r => cases e <;> exact hm
  | stmt s r =>
    cases s with
    | update u => exact hm
    | query q =>
      cases q with
      | getMessageByClientId c s k => exact absurd (hev.1.symm.trans hm) nofun
      | getGroup | getGroupMember => cases r <;> exact hm
      | _ => exact hm
  | _ => exact hm

end Nexo
