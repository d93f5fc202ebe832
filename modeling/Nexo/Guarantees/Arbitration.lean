import Nexo.Gateway.Arbitration

/-!
# Logins settle on one token

Of two connections of a user and a platform with different tokens, the one that looked for
candidates later was adopted before and finds the other in the registry, unless that one has begun
to close. So it does not miss it (`Pc.misses`), and in its section under `kickMu` it either drains
it or is no longer active itself. The invariant says that no two active connections with different
tokens miss each other (`Settled`); a connection that has returned from `publishKick` misses all
that are still active.
-/

namespace Nexo.Gateway.Arbitration

open Machine List Option

variable {s s' : State} {i j : ℕ} {c c' : Client} {clients : List Client}

/-! ### What the section under `kickMu` does -/

theorem Client.beginDrain_eq (c : Client) :
    c.beginDrain = if c.active then some { c with draining := true } else none := by
  unfold beginDrain active
  cases c.closed <;> cases c.draining <;> rfl

/-- A client that the loop drains when it comes to it. -/
def Client.Hit (c : Client) (platformId : Int) (keepTokenId : String) : Prop :=
  c.platformId = platformId ∧ c.slot.tokenId ≠ keepTokenId ∧ c.active = true

instance (c : Client) (platformId : Int) (keepTokenId : String) : Decidable (c.Hit platformId keepTokenId) :=
  inferInstanceAs (Decidable (_ ∧ _ ∧ _))

/-- One turn of the loop. -/
theorem kickLoop_cons (p : Int) (k : String) (js : List ℕ) (clients : List Client) :
    (kickLoop p k (j :: js) clients).2 = (kickLoop p k js (match clients[j]? with
      | none => clients
      | some c => if c.Hit p k then clients.set j { c with draining := true } else clients)).2 := by
  rw [kickLoop]
  cases clients[j]? with
  | none => rfl
  | some c =>
    dsimp only
    rw [Client.beginDrain_eq]
    by_cases hp : c.platformId = p ∧ c.slot.tokenId ≠ k
    · rw [if_pos hp]
      by_cases ha : c.active = true
      · rw [if_pos ha, if_pos ⟨hp.1, hp.2, ha⟩]
      · rw [if_neg ha, if_neg fun h ↦ ha h.2.2]
    · rw [if_neg hp, if_neg fun h ↦ hp ⟨h.1, h.2.1⟩]

/-- **The loop drains the candidates that it hits, and changes nothing else.** -/
theorem getElem?_kickLoop (p : Int) (k : String) (js : List ℕ) (hc : clients[j]? = some c) :
    (kickLoop p k js clients).2[j]? =
      some (if j ∈ js ∧ c.Hit p k then { c with draining := true } else c) := by
  induction js generalizing clients c with
  | nil => rw [if_neg fun h ↦ absurd h.1 not_mem_nil]; exact hc
  | cons i js ih =>
    rw [kickLoop_cons]
    by_cases hij : i = j
    · subst hij
      rw [hc]
      by_cases hhit : c.Hit p k
      · -- once drained, it is not hit again
        have hset : (clients.set i { c with draining := true })[i]? = some { c with draining := true } := by
          rw [List.getElem?_set_self (List.getElem?_eq_some_iff.1 hc).1]
        have hnot : ¬ Client.Hit { c with draining := true } p k := fun h ↦ by
          simpa [Client.active] using h.2.2
        simp only [if_pos hhit]
        rw [ih hset, if_neg fun h ↦ hnot h.2, if_pos ⟨mem_cons_self, hhit⟩]
      · simp only [if_neg hhit]
        rw [ih hc, if_neg fun h ↦ hhit h.2, if_neg fun h ↦ hhit h.2]
    · have hother : ∀ clients' : List Client, clients'[j]? = some c →
          (kickLoop p k js clients').2[j]? =
            some (if j ∈ i :: js ∧ c.Hit p k then { c with draining := true } else c) := by
        intro clients' hc'
        rw [ih hc']
        simp only [mem_cons, Ne.symm hij, false_or]
      split
      · exact hother _ hc
      · split
        · exact hother _ (by rw [getElem?_set_ne hij]; exact hc)
        · exact hother _ hc

theorem length_kickLoop (p : Int) (k : String) (js : List ℕ) (clients : List Client) :
    (kickLoop p k js clients).2.length = clients.length := by
  induction js generalizing clients with
  | nil => rfl
  | cons i js ih =>
    rw [kickLoop_cons, ih]
    split
    · rfl
    · split
      · rw [length_set]
      · rfl

/-- A client after the loop is the client before, drained or not. -/
theorem exists_of_getElem?_kickLoop {p : Int} {k : String} {js : List ℕ}
    (hc : (kickLoop p k js clients).2[j]? = some c) :
    ∃ d, clients[j]? = some d ∧ c = if j ∈ js ∧ d.Hit p k then { d with draining := true } else d := by
  have hlt := (List.getElem?_eq_some_iff.1 hc).1
  rw [length_kickLoop] at hlt
  rw [getElem?_kickLoop p k js (getElem?_eq_getElem hlt)] at hc
  exact ⟨_, getElem?_eq_getElem hlt, (some.inj hc).symm⟩

/-- Who is active after the loop was not hit by it. -/
theorem of_getElem?_kickLoop {p : Int} {k : String} {js : List ℕ}
    (hc : (kickLoop p k js clients).2[j]? = some c) (ha : c.active = true) :
    clients[j]? = some c ∧ ¬ (j ∈ js ∧ c.Hit p k) := by
  obtain ⟨d, hd, rfl⟩ := exists_of_getElem?_kickLoop hc
  by_cases hhit : j ∈ js ∧ d.Hit p k
  · rw [if_pos hhit] at ha
    simp [Client.active] at ha
  · rw [if_neg hhit]
    exact ⟨hd, hhit⟩

/-! ### What a step does -/

/-- The callback is past `Adopt`, and the client was adopted. -/
def Pc.joined : Pc → Prop
  | .created | .refused => False
  | _ => True

/-- The callback has looked for candidates and does not have this one among them, or is done with
its candidates. -/
def Pc.misses (pc : Pc) (j : ℕ) : Prop :=
  match pc with
  | .found clients => j ∉ clients
  | .finishing _ | .returned => True
  | _ => False

theorem Pc.joined_of_misses {pc : Pc} (h : pc.misses j) : pc.joined := by
  cases pc with
  | created | refused => exact h.elim
  | _ => trivial

/-- What a step leaves of a client: who it is, and a context that is done. -/
structure Client.Keeps (c c' : Client) : Prop where
  slot : c'.slot = c.slot
  platformId : c'.platformId = c.platformId
  active : c'.active = true → c.active = true

theorem Client.Keeps.refl (c : Client) : c.Keeps c := ⟨rfl, rfl, id⟩

/-- **The kinds of step.** -/
inductive Moved (s s' : State) : Prop
  | opened (users : UserMap) (slot : Slot) (platformId : Int) (hget : users.get = s.users.get)
      (hs' : s' = { users, clients := s.clients ++ [{ slot, platformId }] })
  /-- a step that takes no notice of other clients -/
  | alone (i : ℕ) (c c' : Client) (users : UserMap) (hc : s.clients[i]? = some c) (hkeeps : c.Keeps c')
      (hpc : c'.active = true → (c'.pc.joined → c.pc.joined) ∧ ∀ j, c'.pc.misses j → c.pc.misses j)
      (hfound : ∀ candidates, c'.pc = .found candidates → c.pc = .found candidates)
      (hget : ∀ k u, k ∈ s.users.get u → k = i ∧ c'.active = false ∨ k ∈ users.get u)
      (hsub : ∀ k u, k ∈ users.get u → k ∈ s.users.get u)
      (hs' : s' = { users, clients := s.clients.set i c' })
  | adopted (i : ℕ) (c : Client) (users : UserMap) (hc : s.clients[i]? = some c)
      (hget : ∀ k u, k ∈ s.users.get u → k ∈ users.get u) (hself : i ∈ users.get c.slot.userId)
      (hsub : ∀ k u, k ∈ users.get u → k ∈ s.users.get u ∨ k = i ∧ u = c.slot.userId)
      (hs' : s' = { users, clients := s.clients.set i { c with pc := .adopted } })
  | found (i : ℕ) (c : Client) (hc : s.clients[i]? = some c) (hpc : c.pc = .lookup)
      (hs' : s' = { s with
        clients := s.clients.set i { c with pc := .found (s.users.get c.slot.userId) } })
  | kicked (i : ℕ) (c : Client) (candidates targets : List ℕ) (hc : s.clients[i]? = some c)
      (hpc : c.pc = .found candidates) (hactive : c.active = true)
      (hs' : s' = { s with
        clients := (kickLoop c.platformId c.slot.tokenId candidates s.clients).2.set i
          { c with pc := .finishing targets } })

section Users

variable {m : UserMap} {sl : Slot} {k : ℕ} {u : String}

theorem mem_get_unregister (h : k ∈ m.get u) (hne : k ≠ i) : k ∈ (m.unregister i sl).get u := by
  by_cases hi : i ∈ m.get sl.userId
  · rw [UserMap.get_unregister hi]
    split
    next heq => exact (mem_erase_of_ne hne).2 (heq ▸ h)
    next => exact h
  · rw [UserMap.unregister, if_neg hi]
    exact h

theorem mem_of_mem_get_unregister (h : k ∈ (m.unregister i sl).get u) : k ∈ m.get u := by
  by_cases hi : i ∈ m.get sl.userId
  · rw [UserMap.get_unregister hi] at h
    split at h
    next heq => exact heq ▸ mem_of_mem_erase h
    next => exact h
  · rw [UserMap.unregister, if_neg hi] at h
    exact h

theorem mem_get_adopt {m' : UserMap} {closed : Bool} (h : m.adopt i sl closed = (none, m')) :
    k ∈ m'.get u ↔ k ∈ m.get u ∨ k = i ∧ u = sl.userId := by
  obtain ⟨-, -, rfl⟩ := UserMap.adopt_eq_ok h
  rw [UserMap.get_insert]
  split
  next heq => rw [heq, mem_append, mem_singleton, and_iff_left rfl]
  next hne => exact ⟨.inl, fun h ↦ h.resolve_right fun hself ↦ hne hself.2⟩

end Users

theorem moved_of_callbackNext (hc : s.clients[i]? = some c) (h : callbackNext s i c = some s') :
    Moved s s' := by
  -- the steps that only move the counter
  have halone (pc : Pc) (hpc : c.active = true →
        (pc.joined → c.pc.joined) ∧ ∀ j, pc.misses j → c.pc.misses j)
      (hfound : ∀ candidates, pc ≠ .found candidates)
      (hs' : s' = { s with clients := s.clients.set i { c with pc } }) : Moved s s' :=
    .alone i c { c with pc } s.users hc ⟨rfl, rfl, id⟩ hpc (fun l hl ↦ absurd hl (hfound l))
      (fun k u hk ↦ .inr hk) (fun k u hk ↦ hk) hs'
  unfold callbackNext at h
  split at h
  next hpc =>
    split at h
    next users hadopt =>
      exact .adopted i c users hc (fun k u hk ↦ (mem_get_adopt hadopt).2 (.inl hk))
        ((mem_get_adopt hadopt).2 (.inr ⟨rfl, rfl⟩)) (fun k u hk ↦ (mem_get_adopt hadopt).1 hk)
        (some.inj h).symm
    next err users hadopt =>
      have hget : users.get = s.users.get := by
        rw [UserMap.adopt_eq_error hadopt]
        rfl
      exact .alone i c { c with pc := .refused } users hc ⟨rfl, rfl, id⟩
        (fun _ ↦ ⟨False.elim, fun j ↦ False.elim⟩) nofun
        (fun k u hk ↦ .inr (hget ▸ hk)) (fun k u hk ↦ hget ▸ hk) (some.inj h).symm
  next hpc =>
    refine halone _ (fun hactive ↦ ?_) (fun l hl ↦ ?_) (some.inj h).symm
    · rw [if_pos hactive, hpc]
      exact ⟨fun _ ↦ trivial, fun j ↦ False.elim⟩
    · split at hl <;> cases hl
  next hpc => exact .found i c hc hpc (some.inj h).symm
  next candidates hpc =>
    split at h
    next hactive => exact .kicked i c candidates _ hc hpc hactive (some.inj h).symm
    next hnot =>
      exact halone _ (fun hactive ↦ absurd hactive hnot) (fun l hl ↦ by cases hl) (some.inj h).symm
  next t targets hpc =>
    refine halone _ (fun _ ↦ ?_) (fun l hl ↦ by cases hl) (some.inj h).symm
    rw [hpc]
    exact ⟨fun _ ↦ trivial, fun j _ ↦ trivial⟩
  next hpc =>
    refine halone _ (fun _ ↦ ?_) (fun l hl ↦ by cases hl) (some.inj h).symm
    rw [hpc]
    exact ⟨fun _ ↦ trivial, fun j _ ↦ trivial⟩
  next => cases h
  next => cases h

theorem moved_of_closeNext (hc : s.clients[i]? = some c) (h : closeNext s i c = some s') : Moved s s' := by
  -- once `close` has begun, the client is not active
  have halone (close : ClosePc) (hne : close ≠ .opened) (users : UserMap)
      (hget : ∀ k u, k ∈ s.users.get u → k ≠ i → k ∈ users.get u)
      (hsub : ∀ k u, k ∈ users.get u → k ∈ s.users.get u)
      (hs' : s' = { users, clients := s.clients.set i { c with close } }) : Moved s s' := by
    have hclosed : Client.active { c with close } = false := by simp [Client.active, Client.closed, hne]
    refine .alone i c { c with close } users hc ⟨rfl, rfl, fun ha ↦ ?_⟩ (fun ha ↦ ?_) (fun l hl ↦ hl)
      (fun k u hk ↦ ?_) hsub hs'
    · exact absurd (hclosed.symm.trans ha) Bool.false_ne_true
    · exact absurd (hclosed.symm.trans ha) Bool.false_ne_true
    · by_cases hki : k = i
      · exact .inl ⟨hki, hclosed⟩
      · exact .inr (hget k u hk hki)
  have hsame (close : ClosePc) (hne : close ≠ .opened)
      (hs' : s' = { s with clients := s.clients.set i { c with close } }) : Moved s s' :=
    halone close hne s.users (fun k u hk _ ↦ hk) (fun k u hk ↦ hk) hs'
  unfold closeNext at h
  split at h
  next => exact hsame .cancelled (by decide) (some.inj h).symm
  next => exact hsame .marked (by decide) (some.inj h).symm
  next => exact hsame .closed (by decide) (some.inj h).symm
  next => exact hsame .released (by decide) (some.inj h).symm
  next =>
    exact halone .unregistered (by decide) _ (fun k u hk hne ↦ mem_get_unregister hk hne)
      (fun k u hk ↦ mem_of_mem_get_unregister hk) (some.inj h).symm
  next => exact hsame .finished (by decide) (some.inj h).symm
  next => cases h
  next => cases h

/-- **There are no other steps.** -/
theorem moved_of_next {e : Event} (h : s.next e = some s') : Moved s s' := by
  cases e with
  | open_ slot platformId =>
    simp only [State.next] at h
    split at h
    · cases h
    next users hreserve =>
      have hget : users.get = s.users.get := by
        funext u
        rw [UserMap.get, UserMap.get, (UserMap.reserve_eq_ok hreserve).2.1]
      exact .opened users slot platformId hget (some.inj h).symm
  | callback i =>
    obtain ⟨c, hc, h⟩ := bind_eq_some_iff.1 h
    exact moved_of_callbackNext hc h
  | close i =>
    obtain ⟨c, hc, h⟩ := bind_eq_some_iff.1 h
    exact moved_of_closeNext hc h
  | drain i =>
    obtain ⟨c, hc, h⟩ := bind_eq_some_iff.1 h
    obtain ⟨c', hc', rfl⟩ := map_eq_some_iff.1 h
    rw [Client.beginDrain_eq] at hc'
    split at hc'
    next =>
      cases hc'
      have hdrained : Client.active { c with draining := true } = false := by simp [Client.active]
      refine .alone i c { c with draining := true } s.users hc ⟨rfl, rfl, fun ha ↦ ?_⟩ (fun ha ↦ ?_)
        (fun l hl ↦ hl) (fun k u hk ↦ .inr hk) (fun k u hk ↦ hk) rfl
      · exact absurd (hdrained.symm.trans ha) Bool.false_ne_true
      · exact absurd (hdrained.symm.trans ha) Bool.false_ne_true
    next => cases hc'

/-! ### The invariant -/

/-- Connections of one user and platform that hold different tokens. -/
structure Client.Rivals (c c' : Client) : Prop where
  user : c.slot.userId = c'.slot.userId
  platform : c.platformId = c'.platformId
  token : c.slot.tokenId ≠ c'.slot.tokenId

/-- **Active rivals do not miss each other**, and the registry has every active connection that was
adopted. -/
structure Settled (s : State) : Prop where
  listed : ∀ (i : ℕ) (c : Client), s.clients[i]? = some c → c.active = true → c.pc.joined →
    i ∈ s.users.get c.slot.userId
  fair : ∀ (i j : ℕ) (c c' : Client), s.clients[i]? = some c → s.clients[j]? = some c' →
    c.active = true → c'.active = true → c.Rivals c' → ¬ (c.pc.misses j ∧ c'.pc.misses i)

theorem Client.Rivals.symm (h : c.Rivals c') : c'.Rivals c := ⟨h.user.symm, h.platform.symm, h.token.symm⟩

/-- The pairs after client `i` has moved: those with it, and the others. -/
theorem fair_of_set {d : Client} (hi : i < clients.length)
    (hself : ∀ k d', clients[k]? = some d' → k ≠ i → d.active = true → d'.active = true → d.Rivals d' →
      ¬ (d.pc.misses k ∧ d'.pc.misses i))
    (hother : ∀ (j k : ℕ) (c c' : Client), clients[j]? = some c → clients[k]? = some c' → c.active = true →
      c'.active = true → c.Rivals c' → ¬ (c.pc.misses k ∧ c'.pc.misses j)) (j k : ℕ) (c c' : Client)
    (hc : (clients.set i d)[j]? = some c) (hc' : (clients.set i d)[k]? = some c')
    (ha : c.active = true) (ha' : c'.active = true) (hr : c.Rivals c') :
    ¬ (c.pc.misses k ∧ c'.pc.misses j) := by
  by_cases hj : i = j
  · subst hj
    rw [getElem?_set_self hi] at hc
    cases hc
    by_cases hk : i = k
    · subst hk
      rw [getElem?_set_self hi] at hc'
      exact absurd (some.inj hc' ▸ rfl) hr.token
    · rw [getElem?_set_ne hk] at hc'
      exact hself k c' hc' (Ne.symm hk) ha ha' hr
  · rw [getElem?_set_ne hj] at hc
    by_cases hk : i = k
    · subst hk
      rw [getElem?_set_self hi] at hc'
      cases hc'
      exact fun hm ↦ hself j c hc (Ne.symm hj) ha' ha hr.symm hm.symm
    · rw [getElem?_set_ne hk] at hc'
      exact hother j k c c' hc hc' ha ha' hr

theorem Settled.move (h : Settled s) (hmove : Moved s s') : Settled s' := by
  cases hmove with
  | opened users slot platformId hget hs' =>
    subst hs'
    have hpc {k : ℕ} {d : Client} (hd : (s.clients ++ [({ slot, platformId } : Client)])[k]? = some d)
        (hjoined : d.pc.joined) : s.clients[k]? = some d := by
      refine forall_append (P := fun k d ↦ d.pc.joined → s.clients[k]? = some d) (fun _ _ h _ ↦ h) ?_ k d hd
        hjoined
      exact False.elim
    refine ⟨fun i c hc ha hjoined ↦ ?_, fun i j c c' hc hc' ha ha' hr hm ↦ ?_⟩
    · rw [hget]
      exact h.listed i c (hpc hc hjoined) ha hjoined
    · exact h.fair i j c c' (hpc hc (Pc.joined_of_misses hm.1)) (hpc hc' (Pc.joined_of_misses hm.2)) ha ha'
        hr hm
  | alone i c c' users hc hkeeps hpc _ hget _ hs' =>
    subst hs'
    have hlt := (List.getElem?_eq_some_iff.1 hc).1
    refine ⟨?_, fair_of_set hlt (fun j d' hd' hj ha ha' hr hm ↦ ?_) h.fair⟩
    · refine forall_set (fun j d hd hj ha hjoined ↦ ?_) fun ha hjoined ↦ ?_
      · exact (hget j _ (h.listed j d hd ha hjoined)).resolve_left fun hmoved ↦ hj hmoved.1
      · have hmem := h.listed i c hc (hkeeps.active ha) ((hpc ha).1 hjoined)
        rw [hkeeps.slot]
        refine (hget i _ hmem).resolve_left fun hmoved ↦ ?_
        exact absurd (hmoved.2.symm.trans ha) Bool.false_ne_true
    · refine h.fair i j c d' hc hd' (hkeeps.active ha) ha' ?_ ⟨(hpc ha).2 j hm.1, hm.2⟩
      exact ⟨hkeeps.slot ▸ hr.user, hkeeps.platformId ▸ hr.platform, hkeeps.slot ▸ hr.token⟩
  | adopted i c users hc hget hself _ hs' =>
    subst hs'
    refine ⟨?_, fair_of_set (List.getElem?_eq_some_iff.1 hc).1 (fun j d' _ _ _ _ _ hm ↦ hm.1.elim) h.fair⟩
    exact forall_set (fun j d hd hj ha hjoined ↦ hget j _ (h.listed j d hd ha hjoined)) fun _ _ ↦ hself
  | found i c hc hpc hs' =>
    subst hs'
    have hlt := (List.getElem?_eq_some_iff.1 hc).1
    refine ⟨?_, fair_of_set hlt (fun j d' hd' hj ha ha' hr hm ↦ ?_) h.fair⟩
    · refine forall_set (fun j d hd hj ↦ h.listed j d hd) fun ha _ ↦ h.listed i c hc ha ?_
      rw [hpc]
      trivial
    · -- a rival that has looked already is in the registry
      have hlisted := h.listed j d' hd' ha' (Pc.joined_of_misses hm.2)
      rw [← hr.user] at hlisted
      exact hm.1 hlisted
  | kicked i c candidates targets hc hpc hactive hs' =>
    subst hs'
    have hlt : i < (kickLoop c.platformId c.slot.tokenId candidates s.clients).2.length := by
      rw [length_kickLoop]
      exact (List.getElem?_eq_some_iff.1 hc).1
    refine ⟨?_, fair_of_set hlt (fun j d' hd' hj ha ha' hr hm ↦ ?_) fun j k d d' hd hd' ha ha' ↦ ?_⟩
    · refine forall_set (fun j d hd hj ha ↦ ?_) fun ha _ ↦ h.listed i c hc ha ?_
      · exact h.listed j d (of_getElem?_kickLoop hd ha).1 ha
      · rw [hpc]
        trivial
    · -- a rival among the candidates would have been hit
      obtain ⟨hold, hnot⟩ := of_getElem?_kickLoop hd' ha'
      have hmissed : c.pc.misses j := by
        rw [hpc]
        exact fun hmem ↦ hnot ⟨hmem, hr.platform.symm, hr.token.symm, ha'⟩
      exact h.fair i j c d' hc hold hactive ha' ⟨hr.user, hr.platform, hr.token⟩ ⟨hmissed, hm.2⟩
    · exact h.fair j k d d' (of_getElem?_kickLoop hd ha).1 (of_getElem?_kickLoop hd' ha').1 ha ha'

/-! ### Whose connections are drained -/

/-- Connection `k` is of user `u`. -/
def State.OfUser (s : State) (k : ℕ) (u : String) : Prop :=
  ∃ c, s.clients[k]? = some c ∧ c.slot.userId = u

/-- The candidates of a connection are of its user. -/
def State.Candidates (s : State) (c : Client) : Prop :=
  ∀ candidates, c.pc = .found candidates → ∀ k ∈ candidates, s.OfUser k c.slot.userId

/-- The registry and the candidates have connections under their own user. -/
structure Owned (s : State) : Prop where
  listed : ∀ k u, k ∈ s.users.get u → s.OfUser k u
  found : ∀ (i : ℕ) (c : Client), s.clients[i]? = some c → s.Candidates c

/-- No step takes a client away or makes it another. -/
theorem Moved.keeps (hmove : Moved s s') (hc : s.clients[i]? = some c) :
    ∃ c', s'.clients[i]? = some c' ∧ c.Keeps c' := by
  have hset {j : ℕ} {d d' : Client} (hd : s.clients[j]? = some d) (hkeeps : d.Keeps d') :
      ∃ c', (s.clients.set j d')[i]? = some c' ∧ c.Keeps c' :=
    exists_set hd hkeeps (.refl c) hc
  cases hmove with
  | opened users slot platformId hget hs' =>
    subst hs'
    exact ⟨c, List.getElem?_append_left (List.getElem?_eq_some_iff.1 hc).1 ▸ hc, .refl c⟩
  | alone j d d' users hd hkeeps _ _ _ _ hs' => exact hs' ▸ hset hd hkeeps
  | adopted _ _ _ hd _ _ _ hs' | found _ _ hd _ hs' => exact hs' ▸ hset hd ⟨rfl, rfl, id⟩
  | kicked j d candidates targets hd hpc hactive hs' =>
    subst hs'
    by_cases hij : j = i
    · subst hij
      obtain rfl := some.inj (hd.symm.trans hc)
      refine ⟨_, getElem?_set_self ?_, rfl, rfl, id⟩
      rw [length_kickLoop]
      exact (List.getElem?_eq_some_iff.1 hd).1
    · refine ⟨_, (getElem?_set_ne hij).trans (getElem?_kickLoop _ _ _ hc), ?_⟩
      split
      next hhit => exact ⟨rfl, rfl, fun _ ↦ hhit.2.2.2⟩
      next => exact .refl c

theorem State.OfUser.move {k : ℕ} {u : String} (h : s.OfUser k u) (hmove : Moved s s') : s'.OfUser k u := by
  obtain ⟨c, hc, hu⟩ := h
  obtain ⟨c', hc', hkeeps⟩ := hmove.keeps hc
  exact ⟨c', hc', hkeeps.slot ▸ hu⟩

theorem Owned.move (h : Owned s) (hmove : Moved s s') : Owned s' := by
  have hkeep {k : ℕ} {u : String} (hk : s.OfUser k u) : s'.OfUser k u := hk.move hmove
  refine ⟨fun k u hk ↦ ?_, ?_⟩
  · -- the registry gets the connection that is adopted, and no other
    cases hmove with
    | opened users slot platformId hget hs' =>
      rw [hs'] at hk
      exact hkeep (h.listed k u (hget ▸ hk))
    | alone j d d' users hd _ _ _ _ hsub hs' =>
      rw [hs'] at hk
      exact hkeep (h.listed k u (hsub k u hk))
    | adopted j d users hd _ _ hsub hs' =>
      rw [hs'] at hk
      rcases hsub k u hk with hold | ⟨rfl, rfl⟩
      · exact hkeep (h.listed k u hold)
      · exact hkeep ⟨d, hd, rfl⟩
    | found _ _ _ _ hs' | kicked _ _ _ _ _ _ _ hs' =>
      rw [hs'] at hk
      exact hkeep (h.listed k u hk)
  · have hold (i : ℕ) (c : Client) (hc : s.clients[i]? = some c) : s'.Candidates c :=
      fun candidates hpc k hk ↦ hkeep (h.found i c hc candidates hpc k hk)
    have hnone {d : Client} (hpc : ∀ candidates, d.pc ≠ .found candidates) : s'.Candidates d :=
      fun candidates heq ↦ absurd heq (hpc candidates)
    intro i c hc
    cases hmove with
    | opened users slot platformId hget hs' =>
      rw [hs'] at hc
      refine forall_append (P := fun _ d ↦ s'.Candidates d) hold (hnone fun l hl ↦ ?_) i c hc
      cases hl
    | alone j d d' users hd hkeeps _ hfound _ _ hs' =>
      rw [hs'] at hc
      refine forall_set (P := fun _ d ↦ s'.Candidates d) (fun j d hd _ ↦ hold j d hd) (fun l hl ↦ ?_) i c hc
      rw [hkeeps.slot]
      exact hold j d hd l (hfound l hl)
    | adopted j d users hd _ _ _ hs' =>
      rw [hs'] at hc
      refine forall_set (P := fun _ d ↦ s'.Candidates d) (fun j d hd _ ↦ hold j d hd)
        (hnone fun l hl ↦ ?_) i c hc
      cases hl
    | found j d hd _ hs' =>
      rw [hs'] at hc
      refine forall_set (P := fun _ d ↦ s'.Candidates d) (fun j d hd _ ↦ hold j d hd)
        (fun l hl k hk ↦ ?_) i c hc
      obtain rfl := Pc.found.inj hl
      exact hkeep (h.listed k _ hk)
    | kicked j d candidates' targets hd hpc hactive hs' =>
      rw [hs'] at hc
      refine forall_set (P := fun _ d ↦ s'.Candidates d) (fun j d hd _ ↦ ?_) (hnone fun l hl ↦ ?_) i c hc
      · obtain ⟨d₀, hd₀, rfl⟩ := exists_of_getElem?_kickLoop hd
        split
        next => exact fun l hl ↦ hold j d₀ hd₀ l hl
        next => exact hold j d₀ hd₀
      · cases hl

/-! ### What a step of a callback does to another connection -/

/-- What a step of the callback of client `i`, which is `c`, does to client `j`: nothing, or it is
the section of an active client and hits `j`. -/
inductive Client.Fate (c : Client) (i j : ℕ) (d d' : Client) : Prop
  | spared (hactive : d'.active = d.active) (hdraining : d'.draining = d.draining)
  | drained (candidates : List ℕ) (hne : j ≠ i) (hactive : c.active = true)
      (hhit : d.Hit c.platformId c.slot.tokenId) (hpc : c.pc = .found candidates) (hmem : j ∈ candidates)

theorem callbackNext_client {d : Client} (hc : s.clients[i]? = some c) (h : callbackNext s i c = some s')
    (hd : s.clients[j]? = some d) : ∃ d', s'.clients[j]? = some d' ∧ d'.slot = d.slot ∧
      d'.platformId = d.platformId ∧ c.Fate i j d d' := by
  -- the steps that only move the counter
  have hset (pc : Pc) (users : UserMap) (hs' : s' = { users, clients := s.clients.set i { c with pc } }) :
      ∃ d', s'.clients[j]? = some d' ∧ d'.slot = d.slot ∧ d'.platformId = d.platformId ∧
        c.Fate i j d d' := by
    subst hs'
    have hfate : c.Fate i j c { c with pc } := .spared rfl rfl
    exact exists_set (R := fun d d' ↦ d'.slot = d.slot ∧ d'.platformId = d.platformId ∧ c.Fate i j d d')
      hc ⟨rfl, rfl, hfate⟩ ⟨rfl, rfl, .spared rfl rfl⟩ hd
  unfold callbackNext at h
  split at h
  next =>
    split at h
    next users _ => exact hset _ users (some.inj h).symm
    next users _ => exact hset _ users (some.inj h).symm
  next => exact hset _ s.users (some.inj h).symm
  next => exact hset _ s.users (some.inj h).symm
  next candidates hpc =>
    split at h
    next hactive =>
      cases h
      by_cases hij : i = j
      · subst hij
        obtain rfl := some.inj (hc.symm.trans hd)
        refine ⟨_, getElem?_set_self ?_, rfl, rfl, .spared rfl rfl⟩
        rw [length_kickLoop]
        exact (List.getElem?_eq_some_iff.1 hc).1
      · refine ⟨_, (getElem?_set_ne hij).trans (getElem?_kickLoop _ _ _ hd), ?_⟩
        split
        next hhit => exact ⟨rfl, rfl, .drained candidates (Ne.symm hij) hactive hhit.2 hpc hhit.1⟩
        next => exact ⟨rfl, rfl, .spared rfl rfl⟩
    next => exact hset _ s.users (some.inj h).symm
  next => exact hset _ s.users (some.inj h).symm
  next => exact hset _ s.users (some.inj h).symm
  next => cases h
  next => cases h

/-- The source of a step is spared. -/
theorem callbackNext_self (hc : s.clients[i]? = some c) (h : callbackNext s i c = some s') :
    ∃ c', s'.clients[i]? = some c' ∧ c'.slot = c.slot ∧ c'.platformId = c.platformId ∧
      c'.active = c.active := by
  obtain ⟨c', hc', hslot, hplatform, hfate⟩ := callbackNext_client hc h hc
  cases hfate with
  | spared hactive _ => exact ⟨c', hc', hslot, hplatform, hactive⟩
  | drained _ hne => exact absurd rfl hne

/-- A connection of the user and platform is active. -/
def State.HasActive (s : State) (userId : String) (platformId : Int) : Prop :=
  ∃ (i : ℕ) (c : Client), s.clients[i]? = some c ∧ c.slot.userId = userId ∧ c.platformId = platformId ∧
    c.active = true

/-- A login: a client is created, or a callback goes on. -/
def Event.logsIn : Event → Prop
  | .open_ _ _ | .callback _ => True
  | .close _ | .drain _ => False

/-- **A login keeps a user on the platform**: who drains another is active and stays so. -/
theorem State.HasActive.next {e : Event} {u : String} {p : Int} (howned : Owned s) (h : s.HasActive u p)
    (he : e.logsIn) (hnext : s.next e = some s') : s'.HasActive u p := by
  obtain ⟨j, d, hd, hu, hp, ha⟩ := h
  cases e with
  | open_ slot platformId =>
    simp only [State.next] at hnext
    split at hnext
    · cases hnext
    next users _ =>
      cases hnext
      exact ⟨j, d, List.getElem?_append_left (List.getElem?_eq_some_iff.1 hd).1 ▸ hd, hu, hp, ha⟩
  | callback i =>
    obtain ⟨c, hc, hnext⟩ := bind_eq_some_iff.1 hnext
    obtain ⟨d', hd', hslot, hplatform, hfate⟩ := callbackNext_client hc hnext hd
    cases hfate with
    | spared hactive _ => exact ⟨j, d', hd', hslot ▸ hu, hplatform ▸ hp, hactive ▸ ha⟩
    | drained candidates _ hactive hhit hpc hmem =>
      -- the source takes the place of the client it drained
      obtain ⟨c', hc', hslot', hplatform', hsame⟩ := callbackNext_self hc hnext
      obtain ⟨d₀, hd₀, huser⟩ := howned.found i c hc candidates hpc j hmem
      obtain rfl := some.inj (hd.symm.trans hd₀)
      refine ⟨i, c', hc', ?_, ?_, hsame ▸ hactive⟩
      · rw [hslot', ← huser, hu]
      · rw [hplatform', ← hhit.1, hp]
  | close | drain => exact he.elim

/-! ### Every run -/

theorem Settled.of_reachable {limits : Limits} (h : (arbitration limits).Reachable s) : Settled s := by
  refine System.invariant (I := Settled) (fun s₀ hinit ↦ ?_) (fun s e s' _ hs hstep ↦ ?_) h
  · obtain rfl : s₀ = { users := UserMap.new limits } := hinit
    exact ⟨nofun, fun i j c c' hc ↦ (by cases hc)⟩
  · exact hs.move (moved_of_next hstep)

theorem Owned.of_reachable {limits : Limits} (h : (arbitration limits).Reachable s) : Owned s := by
  refine System.invariant (I := Owned) (fun s₀ hinit ↦ ?_) (fun s e s' _ hs hstep ↦ ?_) h
  · obtain rfl : s₀ = { users := UserMap.new limits } := hinit
    exact ⟨nofun, nofun⟩
  · exact hs.move (moved_of_next hstep)

/-- **Logins leave one token on a platform.** A connection that is closed or draining when it takes
`kickMu` drains nobody; one that drains others is active before and after; so logins alone never
leave a user's platform, once it has an active connection, without one; and two active connections
that have both returned from `publishKick` hold the same token. -/
theorem kick_arbitration (limits : Limits) (h : (arbitration limits).Reachable s) :
    (∀ (i : ℕ) (c : Client) (candidates : List ℕ) (s' : State), s.clients[i]? = some c →
        c.pc = .found candidates → c.active = false → s.next (.callback i) = some s' →
        ∀ (j : ℕ) (d : Client), s.clients[j]? = some d →
          ∃ d', s'.clients[j]? = some d' ∧ d'.draining = d.draining) ∧
      (∀ (i : ℕ) (s' : State), s.next (.callback i) = some s' →
        ∀ (j : ℕ) (d d' : Client), s.clients[j]? = some d → s'.clients[j]? = some d' →
          d.draining = false → d'.draining = true →
          (∃ c, s.clients[i]? = some c ∧ c.active = true) ∧
            ∃ c, s'.clients[i]? = some c ∧ c.active = true) ∧
      (∀ (t : List Event) (s' : State) (u : String) (p : Int), (arbitration limits).Path s t s' →
        (∀ e ∈ t, e.logsIn) → s.HasActive u p → s'.HasActive u p) ∧
      ∀ (i j : ℕ) (c d : Client), s.clients[i]? = some c → s.clients[j]? = some d →
        c.slot.userId = d.slot.userId → c.platformId = d.platformId → c.active = true →
        d.active = true → c.pc = .returned → d.pc = .returned → c.slot.tokenId = d.slot.tokenId := by
  refine ⟨fun i c candidates s' hc hpc hinactive hnext j d hd ↦ ?_,
    fun i s' hnext j d d' hd hd' hold hnew ↦ ?_, fun t s' u p hpath hlogs hu ↦ ?_,
    fun i j c d hc hd huser hplatform ha ha' hpc hpc' ↦ ?_⟩
  · obtain ⟨c₀, hc₀, hnext⟩ := Option.bind_eq_some_iff.1 hnext
    obtain rfl := Option.some.inj (hc.symm.trans hc₀)
    obtain ⟨d', hd', -, -, hfate⟩ := callbackNext_client hc hnext hd
    cases hfate with
    | spared _ hdraining => exact ⟨d', hd', hdraining⟩
    | drained _ _ hactive => exact absurd (hinactive.symm.trans hactive) Bool.false_ne_true
  · obtain ⟨c, hc, hnext⟩ := Option.bind_eq_some_iff.1 hnext
    obtain ⟨d₀, hd₀, -, -, hfate⟩ := callbackNext_client hc hnext hd
    obtain rfl := Option.some.inj (hd'.symm.trans hd₀)
    cases hfate with
    | spared _ hdraining =>
      exact absurd (hold.symm.trans (hdraining.symm.trans hnew)) Bool.false_ne_true
    | drained _ _ hactive =>
      obtain ⟨c', hc', -, -, hsame⟩ := callbackNext_self hc hnext
      exact ⟨⟨c, hc, hactive⟩, c', hc', hsame ▸ hactive⟩
  · induction hpath with
    | refl => exact hu
    | step hpath hstep ih =>
      have hbefore := ih (fun e he ↦ hlogs e (List.mem_cons_of_mem _ he))
      exact hbefore.next (.of_reachable (h.path hpath)) (hlogs _ List.mem_cons_self) hstep
  · by_contra htoken
    refine (Settled.of_reachable h).fair i j c d hc hd ha ha' ⟨huser, hplatform, htoken⟩ ?_
    rw [hpc, hpc']
    exact ⟨trivial, trivial⟩

namespace ArbitrationDemo

/-- Two logins with different tokens that find each other: the second takes `kickMu` first. -/
def mutualLogins : List Event :=
  [.open_ ⟨"u", "a", "ip"⟩ 1, .open_ ⟨"u", "b", "ip"⟩ 1, .callback 0, .callback 1, .callback 0, .callback 1,
    .callback 0, .callback 1, .callback 1]

end ArbitrationDemo

open ArbitrationDemo in
/-- The first one, drained, still holds the second as a candidate; whatever logins do from there,
the user stays on the platform. -/
theorem kick_arbitration_demo :
    ∃ s, System.replay State.next { users := UserMap.new ⟨10, 10, 10, 10⟩ } mutualLogins = some s ∧
      s.clients.map (fun c ↦ (c.active, c.pc)) = [(false, .found [0, 1]), (true, .finishing [0])] ∧
      ∀ (t : List Event) (s' : State), (arbitration ⟨10, 10, 10, 10⟩).Path s t s' →
        (∀ e ∈ t, e.logsIn) → s'.HasActive "u" 1 := by
  have hrun : (System.replay State.next { users := UserMap.new ⟨10, 10, 10, 10⟩ } mutualLogins).map
      (fun s ↦ (s.clients.map fun c ↦ (c.active, c.pc), s.clients[1]?)) =
        some ([(false, .found [0, 1]), (true, .finishing [0])],
          some { slot := ⟨"u", "b", "ip"⟩, platformId := 1, pc := .finishing [0] }) := by
    decide +kernel
  obtain ⟨s, hs, heq⟩ := Option.map_eq_some_iff.1 hrun
  obtain ⟨hclients, hsecond⟩ := Prod.mk.inj heq
  have hreach : (arbitration ⟨10, 10, 10, 10⟩).Reachable s := System.reachable_of_replay hs
  exact ⟨s, hs, hclients, fun t s' hpath hlogs ↦ (kick_arbitration _ hreach).2.2.1 t s' "u" 1 hpath hlogs
    ⟨1, _, hsecond, rfl, rfl, rfl⟩⟩

end Nexo.Gateway.Arbitration
