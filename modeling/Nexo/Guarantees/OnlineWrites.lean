import Nexo.Gateway.OnlineWrites
import Nexo.Gateway.PresenceSets

/-!
# The node never revives a connection that it has removed

An operation that is about to name a reference, without another look at the context of its client,
has the presence lock (`Held`, `Pc.pending`), and nobody becomes about to name a client that is not
active (`Stepped.pending`). So a client that stops being active may be named only by the operation
that has the lock then, and one that is removed by nobody, since the operation that removes it has
the lock itself (`Told`). A client that was added has `onlineAdded` until it is removed, when it is
not active any more. The users that an operation announces are the ones in its account (`Accounts`),
which follows its calls.
-/

namespace Nexo.Gateway.OnlineWrites

open Machine Onlinestore List Option

variable {s s' : State} {k : ℕ} {input : Input} {o : Outcome} {r : ConnRef} {pc : Pc} {c : Client}
  {i : ℕ} {log : List Act} {limits : Limits}

/-! ### What an operation is about to do -/

/-- It has the lock. -/
def Pc.inside : Pc → Bool
  | .lock | .publish _ | .done => false
  | _ => true

/-- It is about to name this reference without another look at `activeCtx`. -/
def Pc.pending (clients : List Client) (r : ConnRef) : Pc → Prop
  | .filter _ _ refs | .renew _ refs => r ∈ refs
  | .add i _ _ => ∃ c, clients[i]? = some c ∧ c.ref = r
  | _ => False

/-- The users whose presence the operation has changed, as far as it goes. -/
def Pc.changed : Pc → List String
  | .each _ changed | .add _ _ changed | .adding _ _ changed => changed
  | .unlock users | .publish users => users
  | _ => []

/-- The operation goes on from there, and is not about to name anything. -/
def Pc.idle : Pc → Bool
  | .filter _ _ _ | .renew _ _ | .add _ _ _ | .done => false
  | _ => true

theorem Pc.not_pending_of_idle {clients : List Client} (h : pc.idle = true) :
    ¬ pc.pending clients r := by
  cases pc with
  | filter | renew | add | done => cases h
  | _ => exact id

namespace Act

def op : Act → ℕ
  | .add k _ | .added k _ | .renew k _ | .revived k _ | .remove k _ | .removed k _ | .published k _ => k

/-- An `Add` or a `Renew` of this reference. -/
def names (r : ConnRef) : Act → Prop
  | .add _ ref => ref = r
  | .renew _ refs => r ∈ refs
  | _ => False

/-- The users whose presence changes with it. -/
def changes : Act → List String
  | .added _ r | .removed _ r => [r.userId]
  | .revived _ refs => refs.map ConnRef.userId
  | _ => []

end Act

/-- A client with this reference is active. -/
def State.Active (s : State) (r : ConnRef) : Prop :=
  ∃ (i : ℕ) (c : Client), s.clients[i]? = some c ∧ c.ref = r ∧ c.active = true

/-- **The kinds of step of an operation.** -/
inductive Moved (s : State) (k : ℕ) (op : Op) : Outcome → Prop
  | locks (hpc : op.pc = .lock) (hfree : s.presence = none) : Moved s k op ⟨.locked, some k, s.clients, none⟩
  | unlocks (users : List String) (hpc : op.pc = .unlock users) :
      Moved s k op ⟨.publish users, none, s.clients, none⟩
  /-- a step of which nobody takes notice -/
  | goes (pc : Pc) (hlive : op.pc ≠ .done) (hinside : pc.inside = op.pc.inside)
      (hchanged : pc.changed = op.pc.changed) (hdone : pc = .done → op.pc.changed = [])
      (hpending : ∀ r, pc.pending s.clients r → op.pc.pending s.clients r ∨ s.Active r)
      (hadd : ∀ i todo changed, pc = .add i todo changed →
        ∃ c, s.clients[i]? = some c ∧ c.onlineAdded = false ∧ c.active = true) :
      Moved s k op ⟨pc, s.presence, s.clients, none⟩
  /-- a call of the store -/
  | asks (pc : Pc) (a : Act) (hlive : op.pc ≠ .done) (hinside : pc.inside = op.pc.inside)
      (hchanged : pc.changed = op.pc.changed) (hdone : pc ≠ .done)
      (hpending : ∀ r, ¬ pc.pending s.clients r) (hop : a.op = k)
      (hchanges : a.changes = []) (hnames : ∀ r, a.names r → op.pc.pending s.clients r)
      (hadd : ∀ k r, a = .add k r → ∃ i c todo changed, op.pc = .add i todo changed ∧
        s.clients[i]? = some c ∧ c.ref = r)
      (hnot : ∀ k users, a ≠ .published k users) : Moved s k op ⟨pc, s.presence, s.clients, some a⟩
  | revived (clients : List ℕ) (refs : List ConnRef) (hpc : op.pc = .renewing clients) :
      Moved s k op
        ⟨.each clients (refs.map ConnRef.userId), s.presence, s.clients, some (.revived k refs)⟩
  | added (i : ℕ) (c : Client) (todo : List ℕ) (changed : List String)
      (hpc : op.pc = .adding i todo changed) (hc : s.clients[i]? = some c) :
      Moved s k op ⟨.each todo (changed ++ [c.ref.userId]), s.presence,
        s.clients.set i { c with onlineAdded := true }, some (.added k c.ref)⟩
  | removed (i : ℕ) (c : Client) (hkind : op.kind = .remove i) (hpc : op.pc = .removing)
      (hc : s.clients[i]? = some c) :
      Moved s k op ⟨.unlock [c.ref.userId], s.presence,
        s.clients.set i { c with onlineAdded := false }, some (.removed k c.ref)⟩
  | publishes (users : List String) (hpc : op.pc = .publish users) (hne : users ≠ []) :
      Moved s k op ⟨.done, s.presence, s.clients, some (.published k (Presence.sortCompact users))⟩

/-- **There are no other steps of an operation.** -/
theorem moved_of_next {op : Op} (h : op.next s k input = some o) : Moved s k op o := by
  obtain ⟨kind, pc⟩ := op
  have hlive : pc ≠ .done := by
    rintro rfl
    cases h
  have hgoes (pc' : Pc) (hidle : pc'.idle = true) (hinside : pc'.inside = pc.inside)
      (hchanged : pc'.changed = pc.changed)
      (ho : some (⟨pc', s.presence, s.clients, none⟩ : Outcome) = some o) : Moved s k ⟨kind, pc⟩ o := by
    cases ho
    refine .goes pc' hlive hinside hchanged (fun hpc ↦ ?_) (fun r hr ↦ ?_) fun i todo changed hpc ↦ ?_
    · subst hpc
      cases hidle
    · exact absurd hr (Pc.not_pending_of_idle hidle)
    · subst hpc
      cases hidle
  have hasks (pc' : Pc) (a : Act) (hidle : pc'.idle = true) (hinside : pc'.inside = pc.inside)
      (hchanged : pc'.changed = pc.changed) (hop : a.op = k) (hchanges : a.changes = [])
      (hnames : ∀ r, a.names r → pc.pending s.clients r)
      (hadd : ∀ k r, a = .add k r → ∃ i c todo changed, pc = .add i todo changed ∧
        s.clients[i]? = some c ∧ c.ref = r) (hnot : ∀ k users, a ≠ .published k users)
      (ho : some (⟨pc', s.presence, s.clients, some a⟩ : Outcome) = some o) : Moved s k ⟨kind, pc⟩ o := by
    cases ho
    refine .asks pc' a hlive hinside hchanged (fun hpc ↦ ?_) (fun r ↦ Pc.not_pending_of_idle hidle) hop hchanges
      hnames hadd hnot
    subst hpc
    cases hidle
  have hends (hout : pc.inside = false) (hnone : pc.changed = [])
      (ho : some (⟨.done, s.presence, s.clients, none⟩ : Outcome) = some o) : Moved s k ⟨kind, pc⟩ o := by
    cases ho
    exact .goes .done hlive hout.symm hnone.symm (fun _ ↦ hnone) (fun _ ↦ False.elim) nofun
  unfold Op.next at h
  dsimp only at h
  split at h
  -- `lock`
  next =>
    split at h
    next hfree =>
      cases h
      exact .locks rfl hfree
    next => cases h
  next => exact hends rfl rfl h
  -- `locked`
  next live =>
    cases live with
    | false => exact hgoes (.unlock []) rfl rfl rfl h
    | true =>
      cases kind with
      | add => exact hgoes .check rfl rfl rfl h
      | remove => exact hgoes .remove rfl rfl rfl h
      | renew => exact hgoes .snapshot rfl rfl rfl h
  -- `check`
  next =>
    cases kind with
    | add i =>
      obtain ⟨c, hc, h⟩ := bind_eq_some_iff.1 h
      split at h
      next => exact hgoes (.each [i] []) rfl rfl rfl h
      next => exact hgoes (.unlock []) rfl rfl rfl h
    | remove | renew => cases h
  -- `snapshot`
  next clients =>
    split at h
    next =>
      cases h
      exact .goes (.filter clients clients []) hlive rfl rfl nofun
        (fun r hr ↦ absurd hr not_mem_nil) nofun
    next => cases h
  -- `filter`
  next clients i todo refs =>
    obtain ⟨c, hc, h⟩ := bind_eq_some_iff.1 h
    cases h
    refine .goes _ hlive rfl rfl nofun (fun r hr ↦ ?_) nofun
    change r ∈ (if c.active = true then refs ++ [c.ref] else refs) at hr
    split at hr
    next hactive =>
      rcases mem_append.1 hr with hr | hr
      · exact .inl hr
      · exact .inr ⟨i, c, hc, (mem_singleton.1 hr).symm, hactive⟩
    next => exact .inl hr
  next clients refs =>
    cases h
    exact .goes (.renew clients refs) hlive rfl rfl nofun (fun r hr ↦ .inl hr)
      nofun
  -- `renew`, `renewing`
  next clients refs =>
    exact hasks (.renewing clients) (.renew k refs) rfl rfl rfl rfl rfl (fun _ hr ↦ hr)
      (fun _ _ ha ↦ by cases ha) nofun h
  next => exact hgoes (.unlock []) rfl rfl rfl h
  next clients refs =>
    cases h
    exact .revived clients refs rfl
  -- `each`
  next i todo changed =>
    obtain ⟨c, hc, h⟩ := bind_eq_some_iff.1 h
    split at h
    next => exact hgoes (.each todo changed) rfl rfl rfl h
    next htest =>
      rw [Bool.or_eq_true, Bool.not_eq_true', not_or, Bool.not_eq_true, Bool.not_eq_false] at htest
      cases h
      refine .goes (.add i todo changed) hlive rfl rfl nofun (fun r hr ↦ ?_)
        fun i' todo' changed' hpc ↦ ?_
      · obtain ⟨c', hc', hr⟩ := hr
        obtain rfl := some.inj (hc.symm.trans hc')
        exact .inr ⟨i, c, hc, hr, htest.2⟩
      · cases hpc
        exact ⟨c, hc, htest⟩
  next changed => exact hgoes (.unlock changed) rfl rfl rfl h
  -- `add`, `adding`
  next i todo changed =>
    obtain ⟨c, hc, h⟩ := bind_eq_some_iff.1 h
    exact hasks (.adding i todo changed) (.add k c.ref) rfl rfl rfl rfl rfl (fun _ hr ↦ ⟨c, hc, hr⟩)
      (fun _ _ ha ↦ ⟨i, c, todo, changed, rfl, hc, (Act.add.inj ha).2⟩) nofun h
  next i todo changed => exact hgoes (.each todo changed) rfl rfl rfl h
  next i todo changed =>
    obtain ⟨c, hc, h⟩ := bind_eq_some_iff.1 h
    cases h
    exact .added i c todo changed rfl hc
  -- `remove`, `removing`
  next =>
    cases kind with
    | remove i =>
      obtain ⟨c, hc, h⟩ := bind_eq_some_iff.1 h
      exact hasks .removing (.remove k c.ref) rfl rfl rfl rfl rfl (fun _ ↦ False.elim)
        (fun _ _ ha ↦ by cases ha) nofun h
    | add | renew => cases h
  next => exact hgoes (.unlock []) rfl rfl rfl h
  next =>
    cases kind with
    | remove i =>
      obtain ⟨c, hc, h⟩ := bind_eq_some_iff.1 h
      cases h
      exact .removed i c rfl rfl hc
    | add | renew => cases h
  -- `unlock`, `publish`
  next users =>
    cases h
    exact .unlocks users rfl
  next => exact hends rfl rfl h
  next users hne =>
    cases h
    exact .publishes users rfl fun hnil ↦ hne hnil
  next => cases h

/-- **The kinds of step of the node.** -/
inductive Stepped (s s' : State) : Prop
  | opened (c : Client) (users : UserMap) (hfresh : ∀ d ∈ s.clients, d.ref.connId ≠ c.ref.connId)
      (hclose : c.close = .opened) (hs' : s' = { s with users, clients := s.clients ++ [c] })
  /-- a step of a client, which may start an operation -/
  | client (i : ℕ) (c c' : Client) (users : UserMap) (ops : List Op) (hc : s.clients[i]? = some c)
      (href : c'.ref = c.ref) (hadded : c'.onlineAdded = c.onlineAdded)
      (hactive : c'.active = true → c.active = true)
      (hclose : c'.close ≠ .opened → c'.active = false ∨ c.close ≠ .opened)
      (hops : ops = s.ops ∨ ∃ kind : Kind, ops = s.ops ++ [{ kind := kind }] ∧
        ∀ j, kind = .remove j → j = i ∧ c.close ≠ .opened)
      (hs' : s' = { s with users, clients := s.clients.set i c', ops })
  | tick (hs' : s' = { s with ops := s.ops ++ [{ kind := .renew }] })
  | op (k : ℕ) (op : Op) (o : Outcome) (hop : s.ops[k]? = some op) (hmoved : Moved s k op o)
      (hs' : s' = { s with
        clients := o.clients
        ops := s.ops.set k { op with pc := o.pc }
        presence := o.presence
        log := o.act.toList ++ s.log })

theorem stepped_of_closeNext (hc : s.clients[i]? = some c) (h : closeNext s i c = some s') :
    Stepped s s' := by
  have hgoes (close : ClosePc) (users : UserMap) (hne : c.close ≠ .opened)
      (hs' : s' = { s with users, clients := s.clients.set i { c with close } }) : Stepped s s' :=
    .client i c { c with close } users s.ops hc rfl rfl id (fun _ ↦ .inr hne) (.inl rfl) hs'
  unfold closeNext at h
  split at h
  next =>
    exact .client i c { c with close := .cancelled, active := false } s.users s.ops hc rfl rfl
      nofun (fun _ ↦ .inl rfl) (.inl rfl) (some.inj h).symm
  next heq => exact hgoes .marked s.users (by rw [heq]; decide) (some.inj h).symm
  next heq => exact hgoes .closed s.users (by rw [heq]; decide) (some.inj h).symm
  next heq => exact hgoes .released s.users (by rw [heq]; decide) (some.inj h).symm
  next heq => exact hgoes .unregistered _ (by rw [heq]; decide) (some.inj h).symm
  next heq => exact hgoes .finished s.users (by rw [heq]; decide) (some.inj h).symm
  next => cases h
  next => cases h

/-- **There are no other steps.** -/
theorem stepped_of_next {e : Event} (h : s.next e = some s') : Stepped s s' := by
  cases e with
  | open_ slot ref =>
    simp only [State.next] at h
    split at h
    next hguard =>
      split at h
      next => cases h
      next users _ => exact .opened { slot, ref } users hguard.2 rfl (some.inj h).symm
    next => cases h
  | adopt i =>
    obtain ⟨c, hc, h⟩ := bind_eq_some_iff.1 h
    have hmoves (callback : CallbackPc) (users : UserMap)
        (hs' : s' = { s with users, clients := s.clients.set i { c with callback } }) : Stepped s s' :=
      .client i c { c with callback } users s.ops hc rfl rfl id (fun hne ↦ .inr hne) (.inl rfl) hs'
    split at h
    next => split at h <;> exact hmoves _ _ (some.inj h).symm
    next => cases h
  | onlineAdd i =>
    obtain ⟨c, hc, h⟩ := bind_eq_some_iff.1 h
    split at h
    next =>
      exact .client i c { c with callback := .entered } s.users _ hc rfl rfl id (fun hne ↦ .inr hne)
        (.inr ⟨.add i, rfl, nofun⟩) (some.inj h).symm
    next => cases h
  | cancel i =>
    obtain ⟨c, hc, h⟩ := map_eq_some_iff.1 h
    exact .client i c { c with active := false } s.users s.ops hc rfl rfl nofun
      (fun _ ↦ .inl rfl) (.inl rfl) h.symm
  | close i =>
    obtain ⟨c, hc, h⟩ := bind_eq_some_iff.1 h
    exact stepped_of_closeNext hc h
  | remove i go =>
    obtain ⟨c, hc, h⟩ := bind_eq_some_iff.1 h
    split at h
    next hguard =>
      have hclosed : c.close ≠ .opened := by
        rw [hguard.1]
        decide
      refine .client i c { c with removing := true } s.users _ hc rfl rfl id (fun hne ↦ .inr hne) ?_
        (some.inj h).symm
      cases go with
      | false => exact .inl rfl
      | true => exact .inr ⟨.remove i, rfl, fun j hj ↦ ⟨(Kind.remove.inj hj).symm, hclosed⟩⟩
    next => cases h
  | renew => exact .tick (some.inj h).symm
  | op k input =>
    obtain ⟨op, hop, h⟩ := bind_eq_some_iff.1 h
    obtain ⟨o, ho, h⟩ := map_eq_some_iff.1 h
    exact .op k op o hop (moved_of_next ho) h.symm

/-! ### Clients -/

/-- What a step leaves of a client. -/
structure Client.Keeps (c c' : Client) : Prop where
  ref : c'.ref = c.ref
  active : c'.active = true → c.active = true
  close : c'.close ≠ .opened → c'.active = false ∨ c.close ≠ .opened

theorem Client.Keeps.refl (c : Client) : c.Keeps c := ⟨rfl, id, .inr⟩

theorem Client.Keeps.inactive {c' : Client} (h : c.Keeps c') (hactive : c.active = false) :
    c'.active = false := by
  rw [← Bool.not_eq_true] at hactive ⊢
  exact fun h' ↦ hactive (h.active h')

theorem Moved.keeps {op : Op} (h : Moved s k op o) (hc : s.clients[i]? = some c) :
    ∃ c', o.clients[i]? = some c' ∧ c.Keeps c' := by
  cases h with
  | added _ _ _ _ _ hd | removed _ _ _ _ hd => exact exists_set hd ⟨rfl, id, .inr⟩ (.refl c) hc
  | _ => exact ⟨c, hc, .refl c⟩

/-- **No step takes a client away or makes it another.** -/
theorem Stepped.keeps (h : Stepped s s') (hc : s.clients[i]? = some c) :
    ∃ c', s'.clients[i]? = some c' ∧ c.Keeps c' := by
  cases h with
  | opened d users _ _ hs' =>
    subst hs'
    exact ⟨c, List.getElem?_append_left (List.getElem?_eq_some_iff.1 hc).1 ▸ hc, .refl c⟩
  | client j d d' users ops hd href _ hactive hclose _ hs' =>
    subst hs'
    exact exists_set hd ⟨href, hactive, hclose⟩ (.refl c) hc
  | tick hs' => exact hs' ▸ ⟨c, hc, .refl c⟩
  | op j op o _ hmoved hs' =>
    subst hs'
    exact hmoved.keeps hc

theorem Moved.length {op : Op} (h : Moved s k op o) : o.clients.length = s.clients.length := by
  cases h with
  | added | removed => exact length_set
  | _ => rfl

/-- A client after a step is a client before it, or is new. -/
theorem Stepped.client_cases (h : Stepped s s') {c' : Client} (hc' : s'.clients[i]? = some c') :
    (∃ c, s.clients[i]? = some c ∧ c.Keeps c') ∨
      i = s.clients.length ∧ c'.close = .opened ∧ (∀ d ∈ s.clients, d.ref.connId ≠ c'.ref.connId) := by
  -- a client that was there is the one it was
  have hold (hlt : i < s.clients.length) : ∃ c, s.clients[i]? = some c ∧ c.Keeps c' := by
    obtain ⟨d, hd, hkeeps⟩ := h.keeps (getElem?_eq_getElem hlt)
    obtain rfl := some.inj (hc'.symm.trans hd)
    exact ⟨_, getElem?_eq_getElem hlt, hkeeps⟩
  have hlt' := (List.getElem?_eq_some_iff.1 hc').1
  by_cases hlt : i < s.clients.length
  · exact .inl (hold hlt)
  cases h with
  | opened c users hfresh hclose hs' =>
    subst hs'
    have hi : i = s.clients.length := by
      rw [length_append, length_singleton] at hlt'
      omega
    subst hi
    rw [getElem?_concat_length] at hc'
    cases hc'
    exact .inr ⟨rfl, hclose, hfresh⟩
  | client j d d' users ops hd _ _ _ _ _ hs' =>
    subst hs'
    rw [length_set] at hlt'
    exact absurd hlt' hlt
  | tick hs' =>
    subst hs'
    exact absurd hlt' hlt
  | op j op o _ hmoved hs' =>
    subst hs'
    rw [hmoved.length] at hlt'
    exact absurd hlt' hlt

/-- The client of this reference is not active. -/
def State.Closed (s : State) (r : ConnRef) : Prop :=
  ∃ (i : ℕ) (c : Client), s.clients[i]? = some c ∧ c.ref = r ∧ c.active = false

theorem State.Closed.step (h : s.Closed r) (hstep : Stepped s s') : s'.Closed r := by
  obtain ⟨i, c, hc, hr, hactive⟩ := h
  obtain ⟨c', hc', hkeeps⟩ := hstep.keeps hc
  exact ⟨i, c', hc', hkeeps.ref.trans hr, hkeeps.inactive hactive⟩

/-- Different clients have different references, and a client that has begun to close is not active.
-/
structure Sound (s : State) : Prop where
  distinct : ∀ (i j : ℕ) (c d : Client), s.clients[i]? = some c → s.clients[j]? = some d →
    c.ref = d.ref → i = j
  shut : ∀ (i : ℕ) (c : Client), s.clients[i]? = some c → c.close ≠ .opened → c.active = false

theorem Sound.step (h : Sound s) (hstep : Stepped s s') : Sound s' := by
  refine ⟨fun i j c' d' hc' hd' hr ↦ ?_, fun i c' hc' hclose ↦ ?_⟩
  · rcases hstep.client_cases hc' with ⟨c, hc, hkeeps⟩ | ⟨hi, -, hfresh⟩ <;>
      rcases hstep.client_cases hd' with ⟨d, hd, hkeeps'⟩ | ⟨hj, -, hfresh'⟩
    · exact h.distinct i j c d hc hd (by rw [← hkeeps.ref, ← hkeeps'.ref, hr])
    · exact absurd (by rw [← hkeeps.ref, hr]) (hfresh' c (mem_of_getElem? hc))
    · exact absurd (by rw [← hkeeps'.ref, hr]) (hfresh d (mem_of_getElem? hd))
    · exact hi.trans hj.symm
  · rcases hstep.client_cases hc' with ⟨c, hc, hkeeps⟩ | ⟨-, hopened, -⟩
    · rcases hkeeps.close hclose with hactive | hclosed
      · exact hactive
      · exact hkeeps.inactive (h.shut i c hc hclosed)
    · exact absurd hopened hclose

/-- A closed client is not active, under another number either. -/
theorem Sound.not_active (h : Sound s) (hclosed : s.Closed r) : ¬ s.Active r := by
  rintro ⟨j, d, hd, hr', hactive⟩
  obtain ⟨i, c, hc, hr, hinactive⟩ := hclosed
  obtain rfl := h.distinct i j c d hc hd (hr.trans hr'.symm)
  obtain rfl := some.inj (hc.symm.trans hd)
  exact absurd (hinactive.symm.trans hactive) Bool.false_ne_true

/-! ### Operations -/

/-- Where an operation after a step comes from. -/
inductive Stepped.From (s : State) (k : ℕ) (op' : Op) : Prop
  | same (hop : s.ops[k]? = some op')
  | fresh (hk : k = s.ops.length) (hpc : op'.pc = .lock)
      (hkind : ∀ j, op'.kind = .remove j → ∃ c, s.clients[j]? = some c ∧ c.close ≠ .opened)
  | moved (op : Op) (o : Outcome) (hop : s.ops[k]? = some op) (hmoved : Moved s k op o)
      (hop' : op' = { op with pc := o.pc })

/-- **A step is one of an operation, or leaves the log and the lock and starts at most one
operation.** -/
theorem Stepped.op_or_same (hstep : Stepped s s') :
    (s'.log = s.log ∧ s'.presence = s.presence ∧ (s'.ops = s.ops ∨ ∃ kind : Kind,
      s'.ops = s.ops ++ [{ kind := kind }] ∧
        ∀ j, kind = .remove j → ∃ c, s.clients[j]? = some c ∧ c.close ≠ .opened)) ∨
    ∃ (k : ℕ) (op : Op) (o : Outcome), s.ops[k]? = some op ∧ Moved s k op o ∧
      s' = { s with
        presence := o.presence
        clients := o.clients
        ops := s.ops.set k { op with pc := o.pc }
        log := o.act.toList ++ s.log } := by
  cases hstep with
  | opened _ _ _ _ hs' => exact .inl (hs' ▸ ⟨rfl, rfl, .inl rfl⟩)
  | client i c _ _ ops hc _ _ _ _ hops hs' =>
    subst hs'
    refine .inl ⟨rfl, rfl, hops.imp_right ?_⟩
    rintro ⟨kind, rfl, hkind⟩
    refine ⟨kind, rfl, fun j hj ↦ ?_⟩
    obtain ⟨rfl, hclosed⟩ := hkind j hj
    exact ⟨c, hc, hclosed⟩
  | tick hs' => exact .inl (hs' ▸ ⟨rfl, rfl, .inr ⟨.renew, rfl, nofun⟩⟩)
  | op k op o hop hmoved hs' => exact .inr ⟨k, op, o, hop, hmoved, hs'⟩

theorem Stepped.op_cases (h : Stepped s s') {op' : Op} (hop' : s'.ops[k]? = some op') :
    Stepped.From s k op' := by
  have hsame (k : ℕ) (op' : Op) (hop' : s.ops[k]? = some op') : Stepped.From s k op' := .same hop'
  rcases h.op_or_same with ⟨-, -, hops | ⟨kind, hops, hkind⟩⟩ | ⟨j, op, o, hop, hmoved, rfl⟩
  · exact .same (hops ▸ hop')
  · rw [hops] at hop'
    exact forall_append (P := Stepped.From s) hsame (.fresh rfl rfl hkind) k op' hop'
  · exact forall_set (P := Stepped.From s) (fun k op' hop' _ ↦ hsame k op' hop') (.moved op o hop hmoved rfl) k
      op' hop'

/-- **Only the operation that holds the lock is inside.** -/
def Held (s : State) : Prop :=
  ∀ (k : ℕ) (op : Op), s.ops[k]? = some op → op.pc.inside = true → s.presence = some k

/-- A step inside keeps the lock. -/
theorem Moved.presence_self {op : Op} (h : Moved s k op o) (hheld : op.pc.inside = true → s.presence = some k)
    (hinside : o.pc.inside = true) : o.presence = some k := by
  cases h with
  | locks => rfl
  | unlocks => cases hinside
  | goes _ _ hsame | asks _ _ _ hsame => exact hheld (hsame ▸ hinside)
  | revived _ _ hpc | added _ _ _ _ hpc | removed _ _ _ hpc => exact hheld (hpc ▸ rfl)
  | publishes => cases hinside

/-- An operation does not take the lock from another. -/
theorem Moved.presence_other {op : Op} (h : Moved s k op o)
    (hheld : op.pc.inside = true → s.presence = some k) {j : ℕ} (hj : j ≠ k) (hother : s.presence = some j) :
    o.presence = some j := by
  cases h with
  | locks _ hfree => exact absurd (hfree.symm.trans hother) (by simp)
  | unlocks users hpc => exact absurd (some.inj (hother.symm.trans (hheld (hpc ▸ rfl)))) hj
  | _ => exact hother

theorem Held.step (h : Held s) (hstep : Stepped s s') : Held s' := by
  rcases hstep.op_or_same with ⟨-, hpresence, hops⟩ | ⟨k, op, o, hop, hmoved, rfl⟩
  · unfold Held
    rw [hpresence]
    rcases hops with hops | ⟨kind, hops, -⟩ <;> rw [hops]
    · exact h
    · exact forall_append h nofun
  · refine forall_set (fun j op' hop' hj hinside ↦ ?_) (hmoved.presence_self (h k op hop))
    exact hmoved.presence_other (h k op hop) hj (h j op' hop' hinside)

/-- The operation that is inside is the only one. -/
theorem Held.unique (h : Held s) {j : ℕ} {op op' : Op} (hop : s.ops[k]? = some op)
    (hop' : s.ops[j]? = some op') (hinside : op.pc.inside = true) (hinside' : op'.pc.inside = true) : j = k :=
  some.inj ((h j op' hop' hinside').symm.trans (h k op hop hinside))

theorem Pc.inside_of_pending {clients : List Client} (h : pc.pending clients r) :
    pc.inside = true := by
  cases pc with
  | lock | publish | done => exact h.elim
  | _ => rfl

theorem Stepped.pending_of_pending (hstep : Stepped s s') (hclosed : s.Closed r)
    (h : pc.pending s'.clients r) : pc.pending s.clients r := by
  cases pc with
  | add i todo changed =>
    obtain ⟨c', hc', hr⟩ := h
    rcases hstep.client_cases hc' with ⟨c, hc, hkeeps⟩ | ⟨-, -, hfresh⟩
    · exact ⟨c, hc, hkeeps.ref.symm.trans hr⟩
    · -- a new client has a reference of its own
      obtain ⟨j, d, hd, hr', -⟩ := hclosed
      exact absurd (by rw [hr, hr']) (hfresh d (mem_of_getElem? hd))
  | _ => exact h

/-- **Nobody becomes about to name a client that is not active.** -/
theorem Stepped.pending (hstep : Stepped s s') (hsound : Sound s) (hclosed : s.Closed r) {op' : Op}
    (hop' : s'.ops[k]? = some op') (h : op'.pc.pending s'.clients r) :
    ∃ op, s.ops[k]? = some op ∧ op.pc.pending s.clients r := by
  have h := hstep.pending_of_pending hclosed h
  cases hstep.op_cases hop' with
  | same hop => exact ⟨op', hop, h⟩
  | fresh _ hpc =>
    rw [hpc] at h
    exact h.elim
  | moved op o hop hmoved heq =>
    subst heq
    refine ⟨op, hop, ?_⟩
    cases hmoved with
    | goes pc _ _ _ _ hpending => exact (hpending r h).resolve_right (hsound.not_active hclosed)
    | asks pc a _ _ _ _ hpending => exact absurd h (hpending r)
    | _ => exact h.elim

/-- **Who names a reference was about to.** -/
theorem Stepped.log_cases (hstep : Stepped s s') :
    s'.log = s.log ∨ ∃ a op, s'.log = a :: s.log ∧ s.ops[a.op]? = some op ∧
      (∀ r, a.names r → op.pc.pending s.clients r) ∧
      ∀ j r, a = .add j r → ∃ i c todo changed, op.pc = .add i todo changed ∧ s.clients[i]? = some c ∧
        c.ref = r := by
  rcases hstep.op_or_same with ⟨hsame, -⟩ | ⟨k, op, o, hop, hmoved, rfl⟩
  · exact .inl hsame
  cases hmoved with
  | locks | unlocks | goes => exact .inl rfl
  | asks pc a _ _ _ _ _ hk _ hnames hadd => exact .inr ⟨a, op, rfl, hk ▸ hop, hnames, hadd⟩
  | _ => exact .inr ⟨_, op, rfl, hop, fun _ ↦ False.elim, fun _ _ ha ↦ by cases ha⟩

/-! ### Whoever may still name a client -/

/-- Since the log was `log`, only operations in `P` have named a reference, and only they may still
do so. -/
structure Spared (P : ℕ → Prop) (log : List Act) (r : ConnRef) (s : State) : Prop where
  closed : s.Closed r
  pending : ∀ (k : ℕ) (op : Op), s.ops[k]? = some op → op.pc.pending s.clients r → P k
  log : ∃ l, s.log = l ++ log ∧ ∀ a ∈ l, a.names r → P a.op

theorem Spared.step {P : ℕ → Prop} (h : Spared P log r s) (hsound : Sound s) (hstep : Stepped s s') :
    Spared P log r s' := by
  refine ⟨h.closed.step hstep, fun k op' hop' hpending ↦ ?_, ?_⟩
  · obtain ⟨op, hop, hpending⟩ := hstep.pending hsound h.closed hop' hpending
    exact h.pending k op hop hpending
  · obtain ⟨l, hl, hnames⟩ := h.log
    rcases hstep.log_cases with hsame | ⟨a, op, hlog, hop, hpending, -⟩
    · exact ⟨l, hsame.trans hl, hnames⟩
    · refine ⟨a :: l, by rw [hlog, hl, cons_append], fun b hb hr ↦ ?_⟩
      rcases mem_cons.1 hb with rfl | hb
      · exact h.pending _ op hop (hpending r hr)
      · exact hnames b hb hr

/-! ### What the log tells of the state -/

/-- An operation that removes a client has it closed. -/
def Removers (s : State) : Prop :=
  ∀ (k : ℕ) (op : Op) (i : ℕ), s.ops[k]? = some op → op.kind = .remove i →
    ∃ c, s.clients[i]? = some c ∧ c.active = false

theorem Removers.step (h : Removers s) (hsound : Sound s) (hstep : Stepped s s') : Removers s' := by
  have hkeep {i : ℕ} (hc : ∃ c, s.clients[i]? = some c ∧ c.active = false) :
      ∃ c, s'.clients[i]? = some c ∧ c.active = false := by
    obtain ⟨c, hc, hactive⟩ := hc
    obtain ⟨c', hc', hkeeps⟩ := hstep.keeps hc
    exact ⟨c', hc', hkeeps.inactive hactive⟩
  intro k op' i hop' hkind
  cases hstep.op_cases hop' with
  | same hop => exact hkeep (h k op' i hop hkind)
  | fresh _ _ hclosed =>
    obtain ⟨c, hc, hclose⟩ := hclosed i hkind
    exact hkeep ⟨c, hc, hsound.shut i c hc hclose⟩
  | moved op o hop _ heq =>
    subst heq
    exact hkeep (h k op i hop hkind)

/-- `Add` will not be called for the client: it is registered, or not active. -/
def Client.Settled (c : Client) : Prop := c.onlineAdded = true ∨ c.active = false

theorem Client.Settled.of_keeps {c' : Client} (h : c.Settled) (hkeeps : c.Keeps c')
    (hadded : c'.onlineAdded = c.onlineAdded) : c'.Settled :=
  h.imp (fun hc ↦ hadded.trans hc) hkeeps.inactive

theorem Stepped.settled (hstep : Stepped s s') (hremovers : Removers s)
    (hc : s.clients[i]? = some c) (h : c.Settled) :
    ∃ c', s'.clients[i]? = some c' ∧ c'.ref = c.ref ∧ c'.Settled := by
  have hset {j : ℕ} {d d' : Client} (hd : s.clients[j]? = some d) (href : d'.ref = d.ref)
      (hsettled : d.Settled → d'.Settled) :
      ∃ c', (s.clients.set j d')[i]? = some c' ∧ c'.ref = c.ref ∧ c'.Settled := by
    obtain ⟨c', hc', hr, hc⟩ := exists_set (R := fun c c' ↦ c'.ref = c.ref ∧ (c.Settled → c'.Settled)) hd
      ⟨href, hsettled⟩ ⟨rfl, id⟩ hc
    exact ⟨c', hc', hr, hc h⟩
  cases hstep with
  | opened d users _ _ hs' =>
    subst hs'
    exact ⟨c, List.getElem?_append_left (List.getElem?_eq_some_iff.1 hc).1 ▸ hc, rfl, h⟩
  | client j d d' users ops hd href hadded hactive hclose _ hs' =>
    subst hs'
    exact hset hd href fun h ↦ h.of_keeps ⟨href, hactive, hclose⟩ hadded
  | tick hs' => exact hs' ▸ ⟨c, hc, rfl, h⟩
  | op k op o hop hmoved hs' =>
    subst hs'
    cases hmoved with
    | added j d _ _ _ hd => exact hset hd rfl fun _ ↦ .inl rfl
    | removed j d hkind _ hd =>
      obtain ⟨d', hd', hactive⟩ := hremovers k op j hop hkind
      obtain rfl := some.inj (hd.symm.trans hd')
      exact hset hd rfl fun _ ↦ .inr hactive
    | _ => exact ⟨c, hc, rfl, h⟩

/-- What the log tells: a client that was removed is gone, and one that was added stays settled. -/
structure Told (s : State) : Prop where
  removed : ∀ k r, .removed k r ∈ s.log → s.Closed r ∧
    ∀ (j : ℕ) (op : Op), s.ops[j]? = some op → ¬ op.pc.pending s.clients r
  added : ∀ k r, .added k r ∈ s.log → ∃ (i : ℕ) (c : Client), s.clients[i]? = some c ∧ c.ref = r ∧
    c.Settled ∧ ∀ (j : ℕ) (op : Op) (todo : List ℕ) (changed : List String),
      s.ops[j]? = some op → op.pc ≠ .add i todo changed

section

variable (hstep : Stepped s s')
include hstep

/-- Nobody is about to add a client that is settled, if nobody was. -/
theorem Stepped.not_add {i : ℕ} {c : Client} (hc : s.clients[i]? = some c)
    (hsettled : c.Settled) (h : ∀ (j : ℕ) (op : Op) (todo : List ℕ) (changed : List String),
      s.ops[j]? = some op → op.pc ≠ .add i todo changed)
    (j : ℕ) (op' : Op) (todo : List ℕ) (changed : List String) (hop' : s'.ops[j]? = some op') :
    op'.pc ≠ .add i todo changed := by
  intro hpc
  cases hstep.op_cases hop' with
  | same hop => exact h j op' todo changed hop hpc
  | fresh _ hlock => exact absurd (hlock.symm.trans hpc) (by simp)
  | moved op o hop hmoved heq =>
    subst heq
    cases hmoved with
    | goes pc _ _ _ _ _ hadd =>
      obtain ⟨d, hd, hadded, hactive⟩ := hadd i todo changed hpc
      obtain rfl := some.inj (hc.symm.trans hd)
      rcases hsettled with h | h
      · exact absurd (hadded.symm.trans h) Bool.false_ne_true
      · exact absurd (h.symm.trans hactive) Bool.false_ne_true
    | asks pc a _ _ _ _ hpending =>
      obtain rfl : pc = .add i todo changed := hpc
      exact hpending c.ref ⟨c, hc, rfl⟩
    | _ => cases hpc

/-- What is logged is logged by the operation that steps. -/
theorem Stepped.log_mem {a : Act} (h : a ∈ s'.log) : a ∈ s.log ∨
    ∃ (k : ℕ) (op : Op) (o : Outcome), s.ops[k]? = some op ∧ Moved s k op o ∧ o.act = some a ∧
      s'.clients = o.clients ∧ s'.ops = s.ops.set k { op with pc := o.pc } := by
  rcases hstep.op_or_same with ⟨hsame, -⟩ | ⟨k, op, o, hop, hmoved, rfl⟩
  · exact .inl (hsame ▸ h)
  · refine (mem_append.1 h).symm.imp_right fun hnew ↦ ?_
    exact ⟨k, op, o, hop, hmoved, mem_toList.1 hnew, rfl, rfl⟩

/-- The operation that has just removed a client. -/
theorem Stepped.removed_cases (h : .removed k r ∈ s'.log) :
    .removed k r ∈ s.log ∨ ∃ op i c, s.ops[k]? = some op ∧ op.kind = .remove i ∧ op.pc = .removing ∧
      s.clients[i]? = some c ∧ c.ref = r := by
  refine (hstep.log_mem h).imp_right ?_
  rintro ⟨j, op, o, hop, hmoved, hact, -, -⟩
  cases hmoved with
  | asks pc a _ _ _ _ _ _ hchanges =>
    cases hact
    cases hchanges
  | removed i c hkind hpc hc =>
    obtain ⟨rfl, rfl⟩ := Act.removed.inj (some.inj hact)
    exact ⟨op, i, c, hop, hkind, hpc, hc, rfl⟩
  | _ => cases hact

/-- The operation that has just added a client. -/
theorem Stepped.added_cases (h : .added k r ∈ s'.log) :
    .added k r ∈ s.log ∨ ∃ op i c todo changed, s.ops[k]? = some op ∧ op.pc = .adding i todo changed ∧
      s.clients[i]? = some c ∧ c.ref = r ∧ s'.clients[i]? = some { c with onlineAdded := true } ∧
      s'.ops = s.ops.set k { op with pc := .each todo (changed ++ [c.ref.userId]) } := by
  refine (hstep.log_mem h).imp_right ?_
  rintro ⟨j, op, o, hop, hmoved, hact, hclients, hops⟩
  cases hmoved with
  | asks pc a _ _ _ _ _ _ hchanges =>
    cases hact
    cases hchanges
  | added i c todo changed hpc hc =>
    obtain ⟨rfl, rfl⟩ := Act.added.inj (some.inj hact)
    refine ⟨op, i, c, todo, changed, hop, hpc, hc, rfl, ?_, hops⟩
    rw [hclients]
    exact List.getElem?_set_self (List.getElem?_eq_some_iff.1 hc).1
  | _ => cases hact

end

theorem Told.step (h : Told s) (hsound : Sound s) (hheld : Held s) (hremovers : Removers s)
    (hstep : Stepped s s') : Told s' := by
  refine ⟨fun k r hlog ↦ ?_, fun k r hlog ↦ ?_⟩
  · rcases hstep.removed_cases hlog with hlog | ⟨op, i, c, hop, hkind, hpc, hc, hr⟩
    · obtain ⟨hclosed, hpending⟩ := h.removed k r hlog
      refine ⟨hclosed.step hstep, fun j op' hop' hp ↦ ?_⟩
      obtain ⟨op, hop, hp⟩ := hstep.pending hsound hclosed hop' hp
      exact hpending j op hop hp
    · obtain ⟨d, hd, hactive⟩ := hremovers k op i hop hkind
      obtain rfl := some.inj (hc.symm.trans hd)
      have hclosed : s.Closed r := ⟨i, c, hc, hr, hactive⟩
      refine ⟨hclosed.step hstep, fun j op' hop' hp ↦ ?_⟩
      -- whoever were about to name it had the lock, as the operation that removed it
      obtain ⟨op₀, hop₀, hp⟩ := hstep.pending hsound hclosed hop' hp
      obtain rfl := hheld.unique hop hop₀ (hpc ▸ rfl) (Pc.inside_of_pending hp)
      obtain rfl := some.inj (hop.symm.trans hop₀)
      rw [hpc] at hp
      exact hp
  · rcases hstep.added_cases hlog with hlog | ⟨op, i, c, todo, changed, hop, hpc, hc, hr, hc', hops⟩
    · obtain ⟨i, c, hc, hr, hsettled, hadd⟩ := h.added k r hlog
      obtain ⟨c', hc', href, hsettled'⟩ := hstep.settled hremovers hc hsettled
      exact ⟨i, c', hc', href.trans hr, hsettled', hstep.not_add hc hsettled hadd⟩
    · refine ⟨i, _, hc', hr, .inl rfl, fun j op' todo' changed' hop' hpc' ↦ ?_⟩
      rw [hops] at hop'
      -- nobody else is inside
      refine forall_set (P := fun _ op' ↦ op'.pc = .add i todo' changed' → False) (fun j op' hop' hj hpc' ↦ ?_)
        (fun hpc' ↦ ?_) j op' hop' hpc'
      · exact hj (hheld.unique hop hop' (hpc ▸ rfl) (hpc' ▸ rfl))
      · cases hpc'

/-! ### Announcements -/

/-- The users whose presence operation `k` has changed, in order. -/
def changesOf (k : ℕ) (log : List Act) : List String :=
  (log.reverse.filter fun a ↦ a.op = k).flatMap Act.changes

theorem changesOf_cons (k : ℕ) (a : Act) (log : List Act) :
    changesOf k (a :: log) = changesOf k log ++ if a.op = k then a.changes else [] := by
  rw [changesOf, reverse_cons, filter_append, flatMap_append, changesOf]
  by_cases h : a.op = k
  · simp [h]
  · simp [h]

/-- **An operation carries along the users it has changed**, and announces them as its last step. -/
def Accounts (log : List Act) (k : ℕ) (op : Op) : Prop :=
  (op.pc ≠ .done → changesOf k log = op.pc.changed ∧ ∀ users, .published k users ∉ log) ∧
    (op.pc = .done → ∀ users, .published k users ∈ log ↔
      users = Presence.sortCompact (changesOf k log) ∧ changesOf k log ≠ [])

/-- What others do is not in an operation's account. -/
theorem Accounts.of_other {op : Op} {j : ℕ} {act : Option Act} (h : Accounts log j op)
    (hact : ∀ a, act = some a → a.op ≠ j) : Accounts (act.toList ++ log) j op := by
  cases act with
  | none => exact h
  | some a =>
    have hne := hact a rfl
    have hchanges : changesOf j (a :: log) = changesOf j log := by
      rw [changesOf_cons, if_neg hne, append_nil]
    have hmem (users : List String) : .published j users ∈ a :: log ↔ .published j users ∈ log := by
      refine ⟨fun hu ↦ (mem_cons.1 hu).resolve_left fun heq ↦ hne ?_, mem_cons_of_mem a⟩
      rw [← heq]
      rfl
    refine ⟨fun hpc ↦ ?_, fun hpc users ↦ ?_⟩
    · obtain ⟨hchanged, hnot⟩ := h.1 hpc
      exact ⟨hchanges.trans hchanged, fun users hu ↦ hnot users ((hmem users).1 hu)⟩
    · change .published j users ∈ a :: log ↔ users = Presence.sortCompact (changesOf j (a :: log)) ∧
        changesOf j (a :: log) ≠ []
      rw [hmem, hchanges]
      exact h.2 hpc users

/-- An operation that goes on, after something of its own. -/
theorem Accounts.act {op : Op} {a : Act} (h : Accounts log k op) (hlive : op.pc ≠ .done)
    (hop : a.op = k) (hnot : ∀ j users, a ≠ .published j users) (hdone : pc ≠ .done)
    (hchanged : pc.changed = op.pc.changed ++ a.changes) :
    Accounts (a :: log) k { op with pc } := by
  obtain ⟨hchanges, hnone⟩ := h.1 hlive
  refine ⟨fun _ ↦ ⟨?_, fun users hu ↦ ?_⟩, fun hpc ↦ absurd hpc hdone⟩
  · rw [changesOf_cons, if_pos hop, hchanges, hchanged]
  · rcases mem_cons.1 hu with heq | hu
    · exact hnot k users heq.symm
    · exact hnone users hu

/-- An operation that only moves. -/
theorem Accounts.goes {op : Op} (h : Accounts log k op) (hlive : op.pc ≠ .done)
    (hchanged : pc.changed = op.pc.changed) (hdone : pc = .done → op.pc.changed = []) :
    Accounts log k { op with pc } := by
  obtain ⟨hchanges, hnone⟩ := h.1 hlive
  refine ⟨fun _ ↦ ⟨hchanges.trans hchanged.symm, hnone⟩, fun hpc users ↦ ?_⟩
  have hnil : changesOf k log = [] := hchanges.trans (hdone hpc)
  exact ⟨fun hu ↦ absurd hu (hnone users), fun hu ↦ absurd hnil hu.2⟩

/-- **The account is kept.** -/
theorem Accounts.move {op : Op} (h : Accounts s.log k op) (hmoved : Moved s k op o) :
    Accounts (o.act.toList ++ s.log) k { op with pc := o.pc } := by
  cases hmoved with
  | locks hpc | unlocks _ hpc => exact h.goes (by simp [hpc]) (by rw [hpc]; rfl) nofun
  | goes pc hlive _ hchanged hdone => exact h.goes hlive hchanged hdone
  | asks pc a hlive _ hchanged hdone _ hop hchanges _ _ hnot =>
    exact h.act hlive hop hnot hdone (by rw [hchanges, append_nil, hchanged])
  | revived _ _ hpc | added _ _ _ _ hpc | removed _ _ _ hpc =>
    exact h.act (by simp [hpc]) rfl nofun nofun (by rw [hpc]; rfl)
  | publishes users hpc hne =>
    obtain ⟨hchanges, hnone⟩ := h.1 (by simp [hpc])
    rw [hpc] at hchanges
    have hchanges' : changesOf k (.published k (Presence.sortCompact users) :: s.log) = users := by
      rw [changesOf_cons, if_pos (show Act.op _ = k from rfl), hchanges]
      exact append_nil _
    refine ⟨fun hdone ↦ absurd rfl hdone, fun _ users' ↦ ?_⟩
    change .published k users' ∈ _ :: s.log ↔ users' = Presence.sortCompact (changesOf k (_ :: s.log)) ∧
      changesOf k (_ :: s.log) ≠ []
    rw [hchanges', and_iff_left hne, mem_cons, or_iff_left (hnone users')]
    exact ⟨fun h ↦ (Act.published.inj h).2, fun h ↦ h ▸ rfl⟩

/-- Every operation keeps its account. -/
structure Announces (s : State) : Prop where
  known : ∀ a ∈ s.log, a.op < s.ops.length
  accounts : ∀ (k : ℕ) (op : Op), s.ops[k]? = some op → Accounts s.log k op

/-- A new operation has an empty account. -/
theorem Announces.fresh (h : Announces s) (kind : Kind) : Accounts s.log s.ops.length { kind := kind } := by
  refine ⟨fun _ ↦ ⟨?_, fun users hu ↦ absurd (h.known _ hu) (lt_irrefl _)⟩, nofun⟩
  have hnone : s.log.reverse.filter (fun a ↦ a.op = s.ops.length) = [] := by
    refine filter_eq_nil_iff.2 fun a ha ↦ ?_
    have hlt := h.known a (mem_reverse.1 ha)
    simpa using hlt.ne
  rw [changesOf, hnone]
  rfl

theorem Announces.step (h : Announces s) (hstep : Stepped s s') : Announces s' := by
  rcases hstep.op_or_same with ⟨hlog, -, hops | ⟨kind, hops, -⟩⟩ | ⟨k, op, o, hop, hmoved, rfl⟩
  · exact ⟨hlog ▸ hops ▸ h.known, hlog ▸ hops ▸ h.accounts⟩
  · refine ⟨fun a ha ↦ ?_, hlog ▸ hops ▸ forall_append h.accounts (h.fresh kind)⟩
    rw [hops, length_append]
    exact Nat.lt_add_right _ (h.known a (hlog ▸ ha))
  · have hact (a : Act) (ha : o.act = some a) : a.op = k := by
      cases hmoved with
      | locks | unlocks | goes => cases ha
      | asks pc b _ _ _ _ _ hk => exact some.inj ha ▸ hk
      | _ => exact some.inj ha ▸ rfl
    refine ⟨fun a ha ↦ ?_, forall_set (fun j op' hop' hj ↦ ?_) ((h.accounts k op hop).move hmoved)⟩
    · rw [length_set]
      rcases mem_append.1 ha with ha | ha
      · rw [hact a (mem_toList.1 ha)]
        exact (List.getElem?_eq_some_iff.1 hop).1
      · exact h.known a ha
    · exact (h.accounts j op' hop').of_other fun a ha heq ↦ hj (heq.symm.trans (hact a ha))

theorem mem_changesOf {u : String} :
    u ∈ changesOf k log ↔ ∃ a ∈ log, a.op = k ∧ u ∈ a.changes := by
  simp [changesOf, and_assoc]

/-- A tick removes nothing. -/
def NoRemoval (s : State) : Prop :=
  ∀ (k : ℕ) (r : ConnRef) (op : Op), .removed k r ∈ s.log → s.ops[k]? = some op → op.kind ≠ .renew

theorem NoRemoval.step (h : NoRemoval s) (hannounces : Announces s) (hstep : Stepped s s') : NoRemoval s' := by
  intro k r op' hlog hop' hkind
  -- the operation was there before the step, and of this kind
  have hlt : k < s.ops.length := by
    rcases hstep.removed_cases hlog with hlog | ⟨op, i, c, hop, -⟩
    · exact hannounces.known _ hlog
    · exact (List.getElem?_eq_some_iff.1 hop).1
  have hbefore : ∃ op, s.ops[k]? = some op ∧ op.kind = .renew := by
    cases hstep.op_cases hop' with
    | same hop => exact ⟨op', hop, hkind⟩
    | fresh hk => exact absurd hlt (hk ▸ lt_irrefl k)
    | moved op o hop _ heq =>
      subst heq
      exact ⟨op, hop, hkind⟩
  obtain ⟨op, hop, hrenew⟩ := hbefore
  rcases hstep.removed_cases hlog with hlog | ⟨op₀, i, c, hop₀, hremove, -⟩
  · exact h k r op hlog hop hrenew
  · obtain rfl := some.inj (hop.symm.trans hop₀)
    exact absurd (hrenew.symm.trans hremove) (by simp)

/-! ### Every run -/

/-- The invariants together. -/
structure Invariant (s : State) : Prop where
  sound : Sound s
  held : Held s
  removers : Removers s
  told : Told s
  announces : Announces s
  noRemoval : NoRemoval s

theorem Invariant.of_reachable (h : (onlineWrites limits).Reachable s) : Invariant s := by
  refine System.invariant (I := Invariant) (fun s₀ hinit ↦ ?_) (fun s e s' _ hs hnext ↦ ?_) h
  · obtain rfl : s₀ = { users := UserMap.new limits } := hinit
    refine ⟨⟨fun i j c d hc ↦ ?_, fun i c hc ↦ ?_⟩, nofun, nofun,
      ⟨fun k r hlog ↦ ?_, fun k r hlog ↦ ?_⟩, ⟨fun a ha ↦ ?_, nofun⟩, fun k r op hlog ↦ ?_⟩
    · cases hc
    · cases hc
    · cases hlog
    · cases hlog
    · cases ha
    · cases hlog
  · have hstep := stepped_of_next hnext
    exact ⟨hs.sound.step hstep, hs.held.step hstep, hs.removers.step hs.sound hstep,
      hs.told.step hs.sound hs.held hs.removers hstep, hs.announces.step hstep,
      hs.noRemoval.step hs.announces hstep⟩

/-- Along a run, only operations in `P` name a reference, if only they may. -/
theorem Spared.path {P : ℕ → Prop} {t : List Event} (h : (onlineWrites limits).Reachable s)
    (hpath : (onlineWrites limits).Path s t s') (hclosed : s.Closed r)
    (hpending : ∀ (k : ℕ) (op : Op), s.ops[k]? = some op → op.pc.pending s.clients r → P k) :
    Spared P s.log r s' := by
  refine (hpath.keeps (P := Spared P s.log r) (fun s₁ e s₂ hreach hs hnext ↦ ?_) h ⟨hclosed, hpending, [], rfl,
    fun a ha ↦ ?_⟩).2
  · exact hs.step (Invariant.of_reachable hreach).sound (stepped_of_next hnext)
  · cases ha

/-- A connection that was added is not added again. -/
theorem not_add_of_added {t : List Event} (h : (onlineWrites limits).Reachable s)
    (hpath : (onlineWrites limits).Path s t s') (hadded : .added k r ∈ s.log) :
    ∃ l, s'.log = l ++ s.log ∧ ∀ a ∈ l, ∀ j, a ≠ .add j r := by
  induction hpath with
  | refl => exact ⟨[], rfl, fun a ha ↦ absurd ha not_mem_nil⟩
  | @step s₁ s₂ t e hpath hnext ih =>
    obtain ⟨l, hl, hnot⟩ := ih
    have hinv := Invariant.of_reachable (h.path hpath)
    rcases (stepped_of_next hnext).log_cases with hsame | ⟨a, op, hlog, hop, -, hadd⟩
    · exact ⟨l, hsame.trans hl, hnot⟩
    · refine ⟨a :: l, by rw [hlog, hl, cons_append], fun b hb j hbj ↦ ?_⟩
      rcases mem_cons.1 hb with rfl | hb
      · obtain ⟨i, c, todo, changed, hpc, hc, hr⟩ := hadd j r hbj
        have hin : .added k r ∈ s₁.log := by
          rw [hl]
          exact mem_append_right l hadded
        obtain ⟨i', c', hc', hr', -, hnone⟩ := hinv.told.added k r hin
        obtain rfl := hinv.sound.distinct i i' c c' hc hc' (hr.trans hr'.symm)
        exact hnone _ op todo changed hop hpc
      · exact hnot b hb j hbj

/-- What a tick has changed. -/
theorem Invariant.mem_changesOf_tick (h : Invariant s) {op : Op} (hop : s.ops[k]? = some op)
    (hkind : op.kind = .renew) {u : String} : u ∈ changesOf k s.log ↔
      (∃ refs, .revived k refs ∈ s.log ∧ ∃ r ∈ refs, r.userId = u) ∨
        ∃ r, .added k r ∈ s.log ∧ r.userId = u := by
  rw [mem_changesOf]
  constructor
  · rintro ⟨a, ha, hk, hu⟩
    cases a with
    | added j r =>
      obtain rfl : j = k := hk
      exact .inr ⟨r, ha, (mem_singleton.1 hu).symm⟩
    | revived j refs =>
      obtain rfl : j = k := hk
      exact .inl ⟨refs, ha, mem_map.1 hu⟩
    | removed j r =>
      obtain rfl : j = k := hk
      exact absurd hkind (h.noRemoval j r op ha hop)
    | add | renew | remove | published => exact absurd hu not_mem_nil
  · rintro (⟨refs, ha, hu⟩ | ⟨r, ha, hu⟩)
    · exact ⟨_, ha, rfl, mem_map.2 hu⟩
    · exact ⟨_, ha, rfl, mem_singleton.2 hu.symm⟩

/-- **The node never revives what it has removed.** In every run: after a `Remove` of a connection
has succeeded, no `Add` and no `Renew` names it; once `activeCtx` of a client is done, only the
operation that has the lock at that moment may still name it; after an `Add` has succeeded, it is
not called for the connection again; and a tick of `renew` announces exactly the users of the
references that `Renew` has reported and of those that it has added, and nothing at all if there are
none. -/
theorem registry_not_resurrected (limits : Limits) (h : (onlineWrites limits).Reachable s) :
    (∀ k r, .removed k r ∈ s.log → ∀ t s', (onlineWrites limits).Path s t s' →
      ∃ l, s'.log = l ++ s.log ∧ ∀ a ∈ l, ¬ a.names r) ∧
    (∀ (i : ℕ) (c : Client), s.clients[i]? = some c → c.active = false →
      ∀ t s', (onlineWrites limits).Path s t s' →
        ∃ l, s'.log = l ++ s.log ∧ ∀ a ∈ l, a.names c.ref → s.presence = some a.op) ∧
    (∀ k r, .added k r ∈ s.log → ∀ t s', (onlineWrites limits).Path s t s' →
      ∃ l, s'.log = l ++ s.log ∧ ∀ a ∈ l, ∀ j, a ≠ .add j r) ∧
    ∀ (k : ℕ) (op : Op), s.ops[k]? = some op → op.kind = .renew →
      (op.pc = .done → ∀ u, (∃ users, .published k users ∈ s.log ∧ u ∈ users) ↔
        (∃ refs, .revived k refs ∈ s.log ∧ ∃ r ∈ refs, r.userId = u) ∨
          ∃ r, .added k r ∈ s.log ∧ r.userId = u) ∧
      ((∀ refs, .revived k refs ∈ s.log → refs = []) → (∀ r, .added k r ∉ s.log) →
        ∀ users, .published k users ∉ s.log) := by
  have hinv := Invariant.of_reachable h
  refine ⟨fun k r hlog t s' hpath ↦ ?_, fun i c hc hactive t s' hpath ↦ ?_,
    fun k r hlog t s' hpath ↦ not_add_of_added h hpath hlog, fun k op hop hkind ↦ ⟨fun hdone u ↦ ?_, ?_⟩⟩
  · obtain ⟨hclosed, hpending⟩ := hinv.told.removed k r hlog
    exact (Spared.path (P := fun _ ↦ False) h hpath hclosed hpending).log
  · -- whoever is about to name it has the lock
    have hpending (k : ℕ) (op : Op) (hop : s.ops[k]? = some op) (hp : op.pc.pending s.clients c.ref) :
        s.presence = some k := hinv.held k op hop (Pc.inside_of_pending hp)
    exact (Spared.path (P := fun k ↦ s.presence = some k) h hpath ⟨i, c, hc, rfl, hactive⟩ hpending).log
  · rw [← hinv.mem_changesOf_tick hop hkind]
    have hpublished := (hinv.announces.accounts k op hop).2 hdone
    constructor
    · rintro ⟨users, hlog, hu⟩
      rw [((hpublished users).1 hlog).1, Presence.mem_sortCompact] at hu
      exact hu
    · intro hu
      exact ⟨_, (hpublished _).2 ⟨rfl, List.ne_nil_of_mem hu⟩, Presence.mem_sortCompact.2 hu⟩
  · intro hrevived hadded users hlog
    have hnil : changesOf k s.log = [] := by
      refine List.eq_nil_iff_forall_not_mem.2 fun u hu ↦ ?_
      rcases (hinv.mem_changesOf_tick hop hkind).1 hu with ⟨refs, ha, r, hr, -⟩ | ⟨r, ha, -⟩
      · rw [hrevived refs ha] at hr
        cases hr
      · exact hadded r ha
    by_cases hdone : op.pc = .done
    · exact (((hinv.announces.accounts k op hop).2 hdone users).1 hlog).2 hnil
    · exact ((hinv.announces.accounts k op hop).1 hdone).2 users hlog

namespace OnlineWritesDemo

/-- A connection of user `u`. -/
def ref : ConnRef := ⟨"u", 2, "c", ⟨by decide, by decide⟩, by decide⟩

/-- The connection is registered; it begins to close when a tick has taken it into its references
already, and is removed after the tick. -/
def run : List Event :=
  [.open_ ⟨"u", "t", "ip"⟩ ref, .adopt 0, .onlineAdd 0,
    .op 0 (.ctx true), .op 0 (.ctx true), .op 0 .go, .op 0 .go, .op 0 .go, .op 0 (.answer true), .op 0 .go,
    .op 0 .go, .op 0 .go,
    .renew, .op 1 (.ctx true), .op 1 (.ctx true), .op 1 (.order [0]), .op 1 .go, .op 1 .go,
    .close 0, .close 0, .close 0, .close 0, .close 0, .close 0, .remove 0 true,
    .op 1 .go, .op 1 (.revived (some [ref])), .op 1 .go, .op 1 .go, .op 1 .go, .op 1 .go,
    .op 2 (.ctx true), .op 2 (.ctx true), .op 2 .go, .op 2 (.answer true)]

end OnlineWritesDemo

open OnlineWritesDemo in
theorem registry_not_resurrected_demo :
    ∃ s, System.replay State.next { users := UserMap.new ⟨10, 10, 10, 10⟩ } run = some s ∧
      s.log = [.removed 2 ref, .remove 2 ref, .published 1 ["u"], .revived 1 [ref],
        .renew 1 [ref], .published 0 ["u"], .added 0 ref, .add 0 ref] ∧
      ∀ t s', (onlineWrites ⟨10, 10, 10, 10⟩).Path s t s' →
        ∃ l, s'.log = l ++ s.log ∧ ∀ a ∈ l, ¬ a.names ref := by
  have hrun : (System.replay State.next { users := UserMap.new ⟨10, 10, 10, 10⟩ } run).map State.log =
      some [.removed 2 ref, .remove 2 ref, .published 1 ["u"], .revived 1 [ref],
        .renew 1 [ref], .published 0 ["u"], .added 0 ref, .add 0 ref] := by
    decide +kernel
  obtain ⟨s, hs, hlog⟩ := Option.map_eq_some_iff.1 hrun
  have hreach : (onlineWrites ⟨10, 10, 10, 10⟩).Reachable s := System.reachable_of_replay hs
  refine ⟨s, hs, hlog, (registry_not_resurrected _ hreach).1 2 ref ?_⟩
  rw [hlog]
  exact List.mem_cons_self

end Nexo.Gateway.OnlineWrites
