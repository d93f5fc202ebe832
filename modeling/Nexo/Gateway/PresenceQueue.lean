import Nexo.Gateway.Presence

/-!
# What the operations of the presence scheduler do

One theorem for each operation on the queue. They say where a subscription stands afterwards, that
the queue is a heap again, and which fields are touched at all.
-/

namespace Nexo.Gateway.Presence

variable {L : Type} {p p' : Presence L} {i j : ℕ} {time now : Int} {s : Subscription}

@[simp] theorem write_subs_self (p : Presence L) (i : ℕ) (s : Subscription) :
    (p.write i s).subs i = s := by simp [write]

theorem write_subs_of_ne (hji : j ≠ i) : (p.write i s).subs j = p.subs j := by simp [write, hji]

/-- Writing what the queue does not compare leaves it a heap. -/
theorem ok_write (h : p.due.Ok (key p.subs)) (hready : s.readyAt = (p.subs i).readyAt)
    (hseq : s.seq = (p.subs i).seq) : (p.write i s).due.Ok (key (p.write i s).subs) := by
  refine h.congr fun j _ ↦ ?_
  by_cases hji : j = i
  · rw [hji, key, key, write_subs_self, hready, hseq]
  · rw [key, key, write_subs_of_ne hji]

/-! ### `requeue` -/

/-- The time to which `requeue` clamps. -/
def clamp (s : Subscription) (time : Int) : Int := max time s.nextAttempt

/-- **What `requeue` does**: subscription `i` is queued, no later than before. -/
structure Requeued (p : Presence L) (i : ℕ) (time : Int) (p' : Presence L) : Prop where
  heap : p'.due.Ok (key p'.subs)
  has : ∀ j, p'.due.Has j ↔ p.due.Has j ∨ j = i
  other : ∀ j, j ≠ i → p'.subs j = p.subs j
  self : p'.subs i =
    { p.subs i with readyAt := (p'.subs i).readyAt, seq := (p'.subs i).seq }
  readyAt : (p'.subs i).readyAt =
    if p.due.Has i then min (p.subs i).readyAt (clamp (p.subs i) time) else clamp (p.subs i) time
  mark : (p'.subs i).seq = if p.due.Has i then (p.subs i).seq else p.seq
  seq : p'.seq = if p.due.Has i then p.seq else p.seq + 1
  wake : p'.wake = true ∨ p'.wake = p.wake ∧ (p'.subs = p.subs ∧ p'.due = p.due ∨ p'.due.index i ≠ 0)
  frame : p' = { p with subs := p'.subs, due := p'.due, seq := p'.seq, wake := p'.wake }

/-- Only the place in the queue changes. -/
theorem Requeued.core (h : Requeued p i time p') (j : ℕ) :
    p'.subs j = { p.subs j with readyAt := (p'.subs j).readyAt, seq := (p'.subs j).seq } := by
  by_cases hji : j = i
  · rw [hji]
    exact h.self
  · rw [h.other j hji]

theorem clamp_eq (s : Subscription) (time : Int) :
    (if time < s.nextAttempt then s.nextAttempt else time) = clamp s time := by
  rw [clamp, max_def]
  split <;> split <;> omega

theorem notifyHead_eq (p : Presence L) (i : ℕ) :
    p.notifyHead i = { p with wake := p.wake || decide (p.due.index i = 0) } := by
  rw [notifyHead, notify]
  split
  next h => simp [h]
  next h => simp [h]

theorem wake_or {P Q : Prop} [Decidable P] (w : Bool) (h : ¬ P → Q) : (w || decide P) = true ∨
    (w || decide P) = w ∧ Q := by
  by_cases hP : P
  · exact .inl (by simp [hP])
  · exact .inr ⟨by simp [hP], h hP⟩

theorem requeued (h : p.due.Ok (key p.subs)) (i : ℕ) (time : Int) :
    Requeued p i time (p.requeue i time) := by
  have hkey {s : Subscription} (j : ℕ) (hji : j ≠ i) : key (p.write i s).subs j = key p.subs j := by
    rw [key, key, write_subs_of_ne hji]
  simp only [requeue, clamp_eq]
  split
  next hhas =>
    split
    next hle =>
      -- queued, and not later
      refine ⟨h, fun j ↦ ?_, fun _ _ ↦ rfl, rfl, ?_, ?_, ?_, .inr ⟨rfl, .inl ⟨rfl, rfl⟩⟩, rfl⟩
      · exact ⟨.inl, fun hj ↦ hj.elim id fun hji ↦ hji ▸ hhas⟩
      · rw [if_pos hhas, min_eq_left hle]
      · rw [if_pos hhas]
      · rw [if_pos hhas]
    next hlt =>
      obtain ⟨hok, -, hhas'⟩ :=
        h.fix hhas (hkey (s := { p.subs i with readyAt := clamp (p.subs i) time }))
      rw [notifyHead_eq]
      refine ⟨hok, fun j ↦ ?_, fun j hji ↦ write_subs_of_ne hji, ?_, ?_, ?_, ?_, ?_, rfl⟩
      · exact (hhas' j).trans ⟨.inl, fun hj ↦ hj.elim id fun hji ↦ hji ▸ hhas⟩
      · simp
      · rw [if_pos hhas, min_eq_right (not_le.1 hlt).le]
        simp
      · rw [if_pos hhas]
        simp
      · rw [if_pos hhas]
        rfl
      · exact wake_or _ .inr
  next hhas =>
    have hok₀ : p.due.Ok (key (p.write i { p.subs i with
        readyAt := clamp (p.subs i) time, seq := p.seq }).subs) :=
      h.congr fun j hj ↦ hkey j fun hji ↦ hhas (hji ▸ hj)
    obtain ⟨hok, -, hhas'⟩ := hok₀.push hhas
    rw [notifyHead_eq]
    refine ⟨hok, hhas', fun j hji ↦ write_subs_of_ne hji, ?_, ?_, ?_, ?_, ?_, rfl⟩
    · simp
    · rw [if_neg hhas]
      simp
    · rw [if_neg hhas]
      simp
    · rw [if_neg hhas]
      rfl
    · exact wake_or _ .inr

end Nexo.Gateway.Presence
