import Nexo.Gateway.SendQueue
import Mathlib.Tactic.Abel

/-!
# Send-byte conservation

Every charge is in exactly one place: given back, owed by a client, or held by an operation that is
in progress (`Conserved.charges`). A step either charges a frame, gives charges back or moves them
between the parties it involves (`Transfer`); that the bytes add up follows.

The invariant is about charges and not about bytes on purpose: two frames of the same size would
otherwise stand in for each other, and a frame given back twice would hide one that is never given
back. The bytes of a client are then those of its charges (`Ok.bytes_charges`), a closed client has
none (`Ok.charges_closed`), and an operation in progress is never stuck (`Conserved.op_enabled`).
-/

namespace Nexo.Gateway

open Machine List Option

/-- The charges a client answers for: those of its queue and those its goroutines hold. -/
def Sender.charges (c : Sender) : Multiset Charge := c.owed + c.writer.charges + c.closer.charges

/-- **What holds of one client.** -/
structure Sender.Ok (c : Sender) : Prop where
  queued : c.queued = bytes c.owed
  /-- `closing` is set by `close`, and never under the writer's lock -/
  closing : c.closing = true → c.closer ≠ .opened ∧ c.locked = false
  opened : c.closing = false → c.closer = .opened
  leaked : ∀ n cs, c.closer = .marked n cs → n = bytes cs

/-- **What a step does to the budget**, when the parties it involves answer for `x` before and `x'`
after it. -/
inductive Transfer (b : Budget) (x x' : Multiset Charge) : Budget → Prop
  | move {b' : Budget} (hx : x' = x) (hlimit : b'.limit = b.limit) (hqueued : b'.queued = b.queued)
      (hissued : b'.issued = b.issued) (hreleased : b'.released = b.released) : Transfer b x x' b'
  | charge (n : ℕ) (hx : x' = x + {b.fresh n}) : Transfer b x x' (b.add n)
  | release (n : Int) (cs : Multiset Charge) (hx : x = x' + cs) (hn : n = bytes cs) :
      Transfer b x x' (b.release n cs)

section Step

variable {b b' : Budget} {c c' : Sender} {o o' : Op} {capacity : ℕ}

theorem Sender.ok_new : ({} : Sender).Ok := ⟨by simp [owed, WriterPc.pending], nofun, fun _ ↦ rfl, nofun⟩

theorem Sender.Ok.next {m : SenderMove} (h : c.Ok) (hnext : c.next b m = some (c', b')) :
    c'.Ok ∧ Transfer b c.charges c'.charges b' := by
  obtain ⟨hqueued, hclosing, hopened, hleaked⟩ := h
  rcases c with ⟨send, queued, closing, writer, closer⟩
  cases m with
  | dequeue =>
    rcases writer with - | f | f <;> rcases send with - | ⟨f, rest⟩ <;>
      simp only [Sender.next, some.injEq, Prod.mk.injEq, reduceCtorEq] at hnext
    obtain ⟨rfl, rfl⟩ := hnext
    have howed : Sender.owed ⟨rest, queued, closing, .dequeued f, closer⟩ =
        Sender.owed ⟨f :: rest, queued, closing, .idle, closer⟩ := by
      cases closing <;> simp [owed, WriterPc.pending, ← Multiset.cons_coe,
        ← Multiset.singleton_add, add_comm]
    refine ⟨⟨?_, hclosing, hopened, hleaked⟩, .move ?_ rfl rfl rfl rfl⟩
    · rw [howed]
      exact hqueued
    · simp only [charges, howed, WriterPc.charges]
  | account =>
    rcases writer with - | f | f <;> simp only [Sender.next, reduceCtorEq] at hnext
    cases closing with
    | true =>
      cases hnext
      exact ⟨⟨hqueued, fun _ ↦ ⟨(hclosing rfl).1, rfl⟩, hopened, hleaked⟩, .move rfl rfl rfl rfl rfl⟩
    | false =>
      cases hnext
      have hsize : queued = bytes (send : Multiset Charge) + f.size := by
        simpa [owed, WriterPc.pending] using hqueued
      refine ⟨⟨?_, nofun, hopened, hleaked⟩, .move ?_ rfl rfl rfl rfl⟩
      · simp [owed, WriterPc.pending, hsize]
      · simp [charges, owed, WriterPc.pending, WriterPc.charges]
  | release =>
    rcases writer with - | f | f <;> simp only [Sender.next, reduceCtorEq] at hnext
    cases hnext
    refine ⟨⟨hqueued, fun hc ↦ absurd (hclosing hc).2 (by simp [locked]), hopened, hleaked⟩,
      .release _ {f} ?_ (bytes_singleton f).symm⟩
    simp only [charges, owed, WriterPc.charges, WriterPc.pending]
    abel
  | close =>
    rcases closer with - | ⟨leaked, cs⟩ | - <;> simp only [Sender.next, reduceCtorEq] at hnext
    · split at hnext <;> cases hnext
      next hlocked =>
        obtain rfl : closing = false := by
          by_contra hc
          exact (hclosing (by simpa using hc)).1 rfl
        refine ⟨⟨by simp [owed], fun _ ↦ ⟨nofun, Bool.eq_false_iff.2 hlocked⟩, nofun, ?_⟩,
          .move ?_ rfl rfl rfl rfl⟩
        · rintro n cs heq
          cases heq
          exact hqueued
        · simp [charges, owed, CloserPc.charges, add_comm]
    · cases hnext
      refine ⟨⟨hqueued, fun hc ↦ ⟨nofun, (hclosing hc).2⟩, fun hc ↦ absurd (hopened hc) nofun, nofun⟩,
        .release _ cs ?_ (hleaked _ _ rfl)⟩
      simp [charges, owed, CloserPc.charges]

theorem Op.next_ok {handoff : Bool} (h : c.Ok) (hnext : o.next capacity b c handoff = some (o', c', b')) :
    c'.Ok ∧ Transfer b (c.charges + o.pc.charges) (c'.charges + o'.pc.charges) b' := by
  rcases o with ⟨client, call, size, pc⟩
  cases pc with
  | start =>
    simp only [Op.next] at hnext
    split at hnext <;> cases hnext <;>
      exact ⟨h, .charge size (by simp [OpPc.charges])⟩
  | undo f =>
    cases hnext
    exact ⟨h, .release _ {f} (by simp [OpPc.charges]) (bytes_singleton f).symm⟩
  | drop =>
    simp only [Op.next] at hnext
    split at hnext <;> cases hnext <;> exact ⟨h, .move rfl rfl rfl rfl rfl⟩
  | enqueue f =>
    obtain ⟨hqueued, hclosing, hopened, hleaked⟩ := h
    rcases c with ⟨send, queued, closing, writer, closer⟩
    simp only [Op.next] at hnext
    split at hnext
    · cases hnext
    split at hnext
    · cases hnext
      exact ⟨⟨hqueued, hclosing, hopened, hleaked⟩, .move rfl rfl rfl rfl rfl⟩
    next hlocked hopen =>
    obtain rfl : closing = false := by simpa using hopen
    have hsize : queued = bytes (send : Multiset Charge) + bytes writer.pending := by
      simpa [Sender.owed] using hqueued
    split at hnext
    · cases hnext
      refine ⟨⟨?_, nofun, hopened, hleaked⟩, .move ?_ rfl rfl rfl rfl⟩
      · simp only [Sender.owed, hsize, ← Multiset.coe_add, map_add, Multiset.coe_singleton,
          bytes_singleton, Bool.false_eq_true, if_false]
        omega
      · simp only [Sender.charges, Sender.owed, ← Multiset.coe_add, Multiset.coe_singleton,
          OpPc.charges, Bool.false_eq_true, if_false]
        abel
    split at hnext
    next hhand =>
      cases hnext
      obtain rfl : writer = .idle := hhand.2.2
      refine ⟨⟨?_, nofun, hopened, hleaked⟩, .move ?_ rfl rfl rfl rfl⟩
      · simp [Sender.owed, hsize, WriterPc.pending]
      · simp only [Sender.charges, Sender.owed, OpPc.charges, WriterPc.charges, WriterPc.pending,
          Bool.false_eq_true, if_false]
        abel
    · cases hnext
      exact ⟨⟨hqueued, hclosing, hopened, hleaked⟩, .move rfl rfl rfl rfl rfl⟩
  | giveBack f full =>
    cases hnext
    refine ⟨h, .release _ {f} ?_ (bytes_singleton f).symm⟩
    cases full <;> simp [OpPc.charges]
  | slow =>
    cases hnext
    exact ⟨h, .move rfl rfl rfl rfl rfl⟩
  | finished => cases hnext

/-- An operation stays with its client. -/
theorem Op.client_next {handoff : Bool} (hnext : o.next capacity b c handoff = some (o', c', b')) :
    o'.client = o.client := by
  unfold Op.next at hnext
  repeat' split at hnext
  all_goals cases hnext
  all_goals rfl

end Step

/-! ### The node -/

/-- **What holds of the node.** -/
structure Conserved (limit : Int) (s : SendState) : Prop where
  limit : s.budget.limit = limit
  clients : ∀ (j : ℕ) (c : Sender), s.clients[j]? = some c → c.Ok
  ops : ∀ (i : ℕ) (o : Op), s.ops[i]? = some o → o.client < s.clients.length
  ids : ∀ f ∈ s.budget.issued, f.id < s.budget.issued.length
  nodup : s.budget.issued.Nodup
  charges : (s.budget.issued : Multiset Charge) =
    s.budget.released + tally Sender.charges s.clients + tally (fun o ↦ o.pc.charges) s.ops
  queued : s.budget.queued + bytes s.budget.released = bytes s.budget.issued

section Run

variable {limit : Int} {capacity : ℕ} {s s' : SendState} {e : SendEvent} {b : Budget}
  {x x' : Multiset Charge}

/-- **A transfer keeps the books.** -/
theorem Transfer.conserved (h : Transfer s.budget x x' b) (hs : Conserved limit s)
    {clients : List Sender} {ops : List Op} (rest : Multiset Charge)
    (hclients : ∀ (j : ℕ) (c : Sender), clients[j]? = some c → c.Ok)
    (hops : ∀ (i : ℕ) (o : Op), ops[i]? = some o → o.client < clients.length)
    (hbefore : tally Sender.charges s.clients + tally (fun o ↦ o.pc.charges) s.ops = rest + x)
    (hafter : tally Sender.charges clients + tally (fun o ↦ o.pc.charges) ops = rest + x') :
    Conserved limit { budget := b, clients, ops } := by
  have hcharges := hs.charges
  rw [add_assoc, hbefore] at hcharges
  cases h with
  | move hx hlimit hqueued hissued hreleased =>
    refine ⟨hlimit.trans hs.limit, hclients, hops, ?_, ?_, ?_, ?_⟩
    · rw [hissued]
      exact hs.ids
    · rw [hissued]
      exact hs.nodup
    · rw [hissued, hreleased, add_assoc, hafter, hcharges, hx]
    · rw [hissued, hreleased, hqueued]
      exact hs.queued
  | charge n hx =>
    have hnew : s.budget.fresh n ∉ s.budget.issued := fun hmem ↦ Nat.lt_irrefl _ (hs.ids _ hmem)
    refine ⟨hs.limit, hclients, hops, fun f hf ↦ ?_, ?_, ?_, ?_⟩
    · rw [Budget.add, length_append, length_singleton]
      rcases mem_append.1 hf with hf | hf
      · exact Nat.lt_succ_of_lt (hs.ids f hf)
      · rw [mem_singleton.1 hf]
        exact Nat.lt_succ_self _
    · exact nodup_append_comm.1 (nodup_cons.2 ⟨hnew, hs.nodup⟩)
    · rw [add_assoc, hafter, hx, Budget.add, ← Multiset.coe_add, hcharges, Multiset.coe_singleton]
      simp only [add_assoc]
    · rw [Budget.add, ← Multiset.coe_add, Multiset.coe_singleton, map_add, bytes_singleton,
        ← hs.queued]
      simp only [Budget.fresh]
      omega
  | release n cs hx hn =>
    refine ⟨hs.limit, hclients, hops, hs.ids, hs.nodup, ?_, ?_⟩
    · rw [add_assoc, hafter]
      simp only [Budget.release]
      rw [hcharges, hx]
      abel
    · simp only [Budget.release, map_add, hn]
      rw [← hs.queued]
      omega

/-- **One step keeps the books.** -/
theorem Conserved.step (h : Conserved limit s) (hnext : s.next capacity e = some s') :
    Conserved limit s' := by
  cases e with
  | connect =>
    cases hnext
    refine (Transfer.move rfl rfl rfl rfl rfl : Transfer s.budget 0 0 s.budget).conserved h _
      (forall_append h.clients Sender.ok_new) (fun i o ho ↦ ?_) (add_zero _).symm ?_
    · rw [length_append]
      exact Nat.lt_succ_of_lt (h.ops i o ho)
    rw [tally_append]
    simp [Sender.charges, Sender.owed, WriterPc.pending, WriterPc.charges, CloserPc.charges]
  | call client call size =>
    simp only [SendState.next] at hnext
    split at hnext <;> cases hnext
    next hlt =>
    refine (Transfer.move rfl rfl rfl rfl rfl : Transfer s.budget 0 0 s.budget).conserved h _
      h.clients (forall_append h.ops hlt) (add_zero _).symm ?_
    rw [tally_append]
    simp [OpPc.charges]
  | client j m =>
    simp only [SendState.next] at hnext
    split at hnext
    · cases hnext
    next c hc =>
      obtain ⟨⟨c', b⟩, hmove, rfl⟩ := map_eq_some_iff.1 hnext
      obtain ⟨hok, htransfer⟩ := (h.clients j c hc).next hmove
      obtain ⟨rest, hrest, hset⟩ := tally_split Sender.charges hc
      refine htransfer.conserved h (rest + tally (fun o ↦ o.pc.charges) s.ops)
        (forall_set (fun j c hc _ ↦ h.clients j c hc) hok) (by simpa using h.ops) ?_ ?_
      · rw [hrest, add_right_comm]
      · rw [hset, add_right_comm]
  | op i handoff =>
    simp only [SendState.next] at hnext
    split at hnext
    · cases hnext
    next o ho =>
      split at hnext
      · cases hnext
      next c hc =>
      obtain ⟨⟨o', c', b⟩, hmove, rfl⟩ := map_eq_some_iff.1 hnext
      obtain ⟨hok, htransfer⟩ := Op.next_ok (h.clients _ c hc) hmove
      obtain ⟨rest, hrest, hset⟩ := tally_split Sender.charges hc
      obtain ⟨rest', hrest', hset'⟩ := tally_split (fun o : Op ↦ o.pc.charges) ho
      refine htransfer.conserved h (rest + rest')
        (forall_set (fun j c hc _ ↦ h.clients j c hc) hok) ?_ ?_ ?_
      · rw [length_set]
        exact forall_set (fun i o ho _ ↦ h.ops i o ho) (Op.client_next hmove ▸ h.ops i o ho)
      · rw [hrest, hrest', add_add_add_comm]
      · rw [hset, hset', add_add_add_comm]

/-- **Every reachable state is conserved.** -/
theorem conserved (h : (sending limit capacity).Reachable s) : Conserved limit s :=
  System.invariant
    (fun s (hinit : s = _) ↦ hinit ▸ ⟨rfl, by simp, by simp, by simp, by simp, by simp, by simp⟩)
    (fun _ _ _ _ hs hstep ↦ hs.step hstep) h

/-- What was charged, and what was given back, stays so. -/
theorem Transfer.grows (h : Transfer s.budget x x' b) :
    s.budget.issued <+: b.issued ∧ s.budget.released ≤ b.released := by
  cases h with
  | move _ _ _ hissued hreleased => exact ⟨hissued ▸ prefix_rfl, hreleased.ge⟩
  | charge n => exact ⟨prefix_append _ _, le_rfl⟩
  | release n cs => exact ⟨prefix_rfl, Multiset.le_add_right _ _⟩

theorem Conserved.grows (h : Conserved limit s) (hnext : s.next capacity e = some s') :
    s.budget.issued <+: s'.budget.issued ∧ s.budget.released ≤ s'.budget.released := by
  cases e with
  | connect =>
    cases hnext
    exact ⟨prefix_rfl, le_rfl⟩
  | call client call size =>
    simp only [SendState.next] at hnext
    split at hnext <;> cases hnext
    exact ⟨prefix_rfl, le_rfl⟩
  | client j m =>
    simp only [SendState.next] at hnext
    split at hnext
    · cases hnext
    next c hc =>
      obtain ⟨⟨c', b⟩, hmove, rfl⟩ := map_eq_some_iff.1 hnext
      exact ((h.clients j c hc).next hmove).2.grows
  | op i handoff =>
    simp only [SendState.next] at hnext
    split at hnext
    · cases hnext
    next o ho =>
      split at hnext
      · cases hnext
      next c hc =>
      obtain ⟨⟨o', c', b⟩, hmove, rfl⟩ := map_eq_some_iff.1 hnext
      exact (Op.next_ok (h.clients _ c hc) hmove).2.grows

end Run

/-! ### The guarantee -/

/-- The bytes that operations in progress hold. -/
def SendState.held (s : SendState) : Int := tally Sender.held s.clients + tally Op.held s.ops

/-- The charges that have not been given back. -/
def SendState.outstanding (s : SendState) : Multiset Charge :=
  tally Sender.charges s.clients + tally (fun o ↦ o.pc.charges) s.ops

/-- All clients are closed and no operation is in progress. -/
def SendState.quiet (s : SendState) : Prop :=
  (∀ c ∈ s.clients, c.closer = .closed) ∧ ∀ o ∈ s.ops, o.pc = .finished

namespace Sender

variable {c : Sender}

theorem Ok.bytes_charges (h : c.Ok) : bytes c.charges = c.queued + c.held := by
  have hwriter : bytes c.writer.charges = c.writer.held := by
    cases c.writer <;> simp [WriterPc.charges, WriterPc.held]
  have hcloser : bytes c.closer.charges = c.closer.held := by
    rcases hc : c.closer with - | ⟨leaked, cs⟩ | -
    · simp [CloserPc.charges, CloserPc.held]
    · exact (h.leaked leaked cs hc).symm
    · simp [CloserPc.charges, CloserPc.held]
  rw [charges, map_add, map_add, ← h.queued, hwriter, hcloser, held, add_assoc]

theorem Ok.charges_closed (h : c.Ok) (hclosed : c.closer = .closed) : c.charges = 0 := by
  have hclosing : c.closing = true := by
    by_contra hopen
    rw [h.opened (by simpa using hopen)] at hclosed
    cases hclosed
  have hlocked := (h.closing hclosing).2
  have hwriter : c.writer.charges = 0 := by
    rw [locked] at hlocked
    cases hw : c.writer <;> simp_all [WriterPc.charges]
  simp [charges, owed, hclosing, hclosed, hwriter, CloserPc.charges]

theorem Ok.queued_open (h : c.Ok) (hopen : c.closing = false) :
    c.queued = (c.send.map fun f ↦ (f.size : Int)).sum + c.writer.pendingBytes := by
  have hwriter : bytes c.writer.pending = c.writer.pendingBytes := by
    cases c.writer <;> simp [WriterPc.pending, WriterPc.pendingBytes]
  rw [h.queued, owed, if_neg (by simp [hopen]), map_add, hwriter]
  simp [bytes]

end Sender

theorem Op.bytes_charges (o : Op) : bytes o.pc.charges = o.held := by
  unfold Op.held OpPc.charges
  split <;> simp

section Guarantee

variable {limit : Int} {capacity : ℕ} {s s' : SendState}

/-- `tryTake` admits bytes only within the limit. -/
theorem Op.queued_le_of_admitted {b b' : Budget} {c c' : Sender} {o o' : Op} {handoff : Bool}
    {f : Charge} (hnext : o.next capacity b c handoff = some (o', c', b')) (hpc : o.pc = .start)
    (hcall : o.call ≠ .send) (hpc' : o'.pc = .enqueue f) (hlimit : 0 < b.limit) :
    b'.queued ≤ b.limit := by
  rcases o with ⟨client, call, size, pc⟩
  obtain rfl : pc = .start := hpc
  simp only [Op.next] at hnext
  split at hnext
  next hadmitted =>
    cases hnext
    have hfits := hadmitted.resolve_left hcall
    simp only [Budget.admits, Bool.not_eq_true', Bool.and_eq_false_iff, decide_eq_false_iff_not] at hfits
    rcases hfits with hfits | hfits
    · exact absurd hlimit hfits
    · exact not_lt.1 hfits
  · cases hnext
    cases hpc'

/-- An operation in progress goes on, or waits for the writer to leave `sendMu`. -/
theorem Conserved.op_enabled (h : Conserved limit s) {i : ℕ} {o : Op} (ho : s.ops[i]? = some o)
    (hpc : o.pc ≠ .finished) : (s.next capacity (.op i false)).isSome ∨
      (s.next capacity (.client o.client .release)).isSome := by
  obtain ⟨c, hc⟩ : ∃ c, s.clients[o.client]? = some c := ⟨_, getElem?_eq_getElem (h.ops i o ho)⟩
  simp only [SendState.next, ho, hc, isSome_map]
  rcases o with ⟨client, call, size, pc⟩
  cases pc with
  | finished => exact absurd rfl hpc
  | enqueue f =>
    rcases hwriter : c.writer with - | g | g
    case releasing => exact .inr (by simp [Sender.next, hwriter])
    all_goals
      refine .inl ?_
      have hlocked : c.locked = false := by simp [Sender.locked, hwriter]
      simp only [Op.next, hlocked]
      repeat' split
      all_goals first | rfl | contradiction
  | start | drop => exact .inl (by simp only [Op.next]; split <;> rfl)
  | undo | giveBack | slow => exact .inl rfl

/-- **Send-byte conservation.** In every reachable state the budget holds the clients' queued bytes
and what operations in progress hold, and is not negative; the bytes of a client that is not closing
are those of its queue and of a frame its writer has dequeued and not accounted yet; every charge is
either given back or outstanding, never both and never twice, for good; nothing is outstanding once
all clients are closed and all operations finished; what `tryTake` admits is within the limit; and
no operation is stuck. -/
theorem send_bytes_conserved (h : (sending limit capacity).Reachable s) :
    s.budget.queued = tally (·.queued) s.clients + s.held ∧
    0 ≤ s.budget.queued ∧
    (∀ (j : ℕ) (c : Sender), s.clients[j]? = some c → c.closing = false →
      c.queued = (c.send.map fun f ↦ (f.size : Int)).sum + c.writer.pendingBytes) ∧
    (s.budget.issued.Nodup ∧
      (s.budget.issued : Multiset Charge) = s.budget.released + s.outstanding ∧
      s.budget.queued + bytes s.budget.released = bytes s.budget.issued ∧
      ∀ t s', (sending limit capacity).Path s t s' →
        s.budget.issued <+: s'.budget.issued ∧ s.budget.released ≤ s'.budget.released) ∧
    (s.quiet → s.budget.queued = 0 ∧ s.budget.released = s.budget.issued) ∧
    (∀ i handoff s' o o' f, s.next capacity (.op i handoff) = some s' → s.ops[i]? = some o →
      s'.ops[i]? = some o' → o.pc = .start → o.call ≠ .send → o'.pc = .enqueue f → 0 < limit →
      s'.budget.queued ≤ limit) ∧
    ∀ i o, s.ops[i]? = some o → o.pc ≠ .finished →
      (s.next capacity (.op i false)).isSome ∨ (s.next capacity (.client o.client .release)).isSome := by
  have hcons := conserved h
  have hok {c : Sender} (hc : c ∈ s.clients) : c.Ok := by
    obtain ⟨j, hj⟩ := List.mem_iff_getElem?.1 hc
    exact hcons.clients j c hj
  have hout : (s.budget.issued : Multiset Charge) = s.budget.released + s.outstanding := by
    rw [hcons.charges, add_assoc]
    rfl
  have hbytes : s.budget.queued = bytes s.outstanding := by
    have hq := hcons.queued
    rw [hout, map_add] at hq
    omega
  refine ⟨?_, ?_, fun j c hc ↦ (hcons.clients j c hc).queued_open,
    ⟨hcons.nodup, hout, hcons.queued, fun t s' hpath ↦ ?_⟩, fun ⟨hclosed, hdone⟩ ↦ ?_, ?_,
    fun i o ho ↦ hcons.op_enabled ho⟩
  · rw [hbytes, SendState.outstanding, SendState.held, map_add, map_tally, map_tally, ← add_assoc,
      ← tally_add]
    congr 1
    · exact tally_congr fun c hc ↦ (hok hc).bytes_charges
    · exact tally_congr fun o _ ↦ o.bytes_charges
  · rw [hbytes]
    exact bytes_nonneg _
  · refine (hpath.keeps (P := fun s' ↦ s.budget.issued <+: s'.budget.issued ∧
      s.budget.released ≤ s'.budget.released) (fun s₁ e s₂ hr hP hstep ↦ ?_) h
      ⟨List.prefix_rfl, le_rfl⟩).2
    obtain ⟨hissued, hreleased⟩ := (conserved hr).grows hstep
    exact ⟨hP.1.trans hissued, hP.2.trans hreleased⟩
  · have hzero : s.outstanding = 0 := by
      rw [SendState.outstanding, tally_eq_zero fun c hc ↦ (hok hc).charges_closed (hclosed c hc),
        tally_eq_zero fun o ho ↦ by rw [hdone o ho]; rfl, add_zero]
    refine ⟨by rw [hbytes, hzero, map_zero], by rw [hout, hzero, add_zero]⟩
  · intro i handoff s' o o' f hnext ho ho' hpc hcall hpc' hlimit
    simp only [SendState.next, ho] at hnext
    split at hnext
    · cases hnext
    next c hc =>
      obtain ⟨⟨o₁, c', b⟩, hmove, rfl⟩ := Option.map_eq_some_iff.1 hnext
      rw [List.getElem?_set_self (List.getElem?_eq_some_iff.1 ho).1] at ho'
      obtain rfl := Option.some.inj ho'
      have hle := Op.queued_le_of_admitted hmove hpc hcall hpc' (hcons.limit.symm ▸ hlimit)
      exact hcons.limit ▸ hle

end Guarantee

namespace SendBytesDemo

/-- A push is refused for lack of headroom and replaced by a resync, a snapshot is enqueued, its
client closes while the writer has the frame, and a second client's frame waits in the queue. -/
def run : List SendEvent :=
  [.connect, .connect, .call 0 .snapshot 60, .call 0 (.push 20) 50, .call 1 .send 30, .op 0 false,
    .op 1 false, .op 1 false, .op 1 false, .op 0 false, .client 0 .dequeue, .op 2 false, .op 1 false,
    .client 0 .close, .op 1 false, .op 2 false, .client 0 .account]

end SendBytesDemo

open SendBytesDemo in
theorem send_bytes_conserved_demo :
    ∃ s, System.replay (SendState.next 8) { budget := { limit := 100 } } run = some s ∧
      s.budget.queued = 110 ∧ s.budget.dropped = 1 ∧
      s.budget.queued = tally (·.queued) s.clients + s.held := by
  have hrun : (System.replay (SendState.next 8) { budget := { limit := 100 } } run).map
      (fun s ↦ (s.budget.queued, s.budget.dropped)) = some (110, 1) := by decide
  obtain ⟨s, hs, hval⟩ := Option.map_eq_some_iff.1 hrun
  have hreach : (sending 100 8).Reachable s := System.reachable_of_replay hs
  exact ⟨s, hs, congrArg Prod.fst hval, congrArg Prod.snd hval, (send_bytes_conserved hreach).1⟩

end Nexo.Gateway
