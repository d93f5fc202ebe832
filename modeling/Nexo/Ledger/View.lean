import Nexo.Ledger.Action

/-!
# The life of one view row

A user's view of a conversation is a small automaton, driven by the conversation's counter `n` and
by whether the user is **active** in the conversation — a member of its group, or either side of a
single chat. `ViewStep` lists its transitions. Everything said later about visible ranges and read
cursors, for any user and any conversation, is an induction over these transitions; no statement of
the store is looked at again.
-/

namespace Nexo

open Option Conv

/-- The row is well formed against a counter: it starts at a positive number, its bounds and its
cursor stay within what its owner may see. -/
structure ViewOk (n : Int) (uc : UserConversation) : Prop where
  one_le_min : 1 ≤ uc.minSeq
  max_nonneg : 0 ≤ uc.maxSeq
  max_le : uc.maxSeq ≤ n
  min_le_read : uc.minSeq - 1 ≤ uc.readSeq
  read_le : uc.readSeq ≤ Conv.visibleMax uc n

/-- **The transitions of a view**: counter from `n` to `n'`, activity from `a` to `a'`. -/
inductive ViewStep (n n' : Int) (a a' : Prop) :
    Option UserConversation → Option UserConversation → Prop where
  /-- No row, before and after. -/
  | absent (hn : n ≤ n') (ha : a' ↔ a) : ViewStep n n' a a' none none
  /-- Messages arrive, the cursor may advance, preferences and times may change. -/
  | keep {uc uc' : UserConversation} (hn : n ≤ n') (ha : a' ↔ a) (hmin : uc'.minSeq = uc.minSeq)
      (hmax : uc'.maxSeq = uc.maxSeq) (hread : uc.readSeq ≤ uc'.readSeq)
      (hle : uc'.readSeq ≤ max uc.readSeq (Conv.visibleMax uc' n')) :
      ViewStep n n' a a' (some uc) (some uc')
  /-- A first row that sees the whole history; one that makes its owner active sees an empty one. -/
  | appear {uc' : UserConversation} (hn : n ≤ n') (ha : ¬ a → n' = 0) (ha' : a')
      (hmin : uc'.minSeq = 1) (hmax : uc'.maxSeq = 0) (hread : 0 ≤ uc'.readSeq)
      (hle : uc'.readSeq ≤ n') : ViewStep n n' a a' none (some uc')
  /-- A join: whatever was there, the row now sees what comes next. -/
  | join {old : Option UserConversation} {uc' : UserConversation} (hn : n' = n) (ha : ¬ a)
      (ha' : a') (hmin : uc'.minSeq = n + 1) (hmax : uc'.maxSeq = 0) (hread : uc'.readSeq = n) :
      ViewStep n n' a a' old (some uc')
  /-- A departure from a conversation with messages. -/
  | freeze {uc : UserConversation} (hn : n' = n) (hpos : 0 < n) (ha : a) (ha' : ¬ a') :
      ViewStep n n' a a' (some uc) (some { uc with maxSeq := n })
  /-- A departure from a conversation without messages. -/
  | drop {uc : UserConversation} (hn : n' = n) (hzero : n = 0) (ha : a) (ha' : ¬ a') :
      ViewStep n n' a a' (some uc) none

theorem ViewOk.min_le {n : Int} {uc : UserConversation} (h : ViewOk n uc) : uc.minSeq ≤ n + 1 := by
  have hread := h.min_le_read
  have hle := h.read_le
  have hvis := visibleMax_le uc n
  omega

/-- What a view shows: nothing without a row. -/
def viewMax (n : Int) (v : Option UserConversation) : Int :=
  (v.map fun uc ↦ Conv.visibleMax uc n).getD 0

/-- Sequence number `s` is in the visible range of a view. -/
def Visible (n : Int) (v : Option UserConversation) (s : Int) : Prop :=
  ∃ uc, v = some uc ∧ uc.minSeq ≤ s ∧ s ≤ Conv.visibleMax uc n

/-- What is known of a view between transitions: its row is well formed, open exactly while its
owner is active, and there while its owner is. -/
structure ViewInv (n : Int) (a : Prop) (v : Option UserConversation) : Prop where
  nonneg : 0 ≤ n
  ok : ∀ uc, v = some uc → ViewOk n uc
  open_iff : ∀ uc, v = some uc → (uc.maxSeq = 0 ↔ a)

namespace ViewStep

variable {n n' : Int} {a a' : Prop} {v v' : Option UserConversation}

theorem le (h : ViewStep n n' a a' v v') : n ≤ n' := by
  cases h <;> omega

/-- Nothing happens to the row itself. -/
theorem same (hn : n ≤ n') (ha : a' ↔ a) : ViewStep n n' a a' v v := by
  cases v with
  | none => exact .absent hn ha
  | some uc => exact .keep hn ha rfl rfl (Int.le_refl _) (by omega)

/-- **The invariant is kept.** -/
theorem inv (h : ViewStep n n' a a' v v') (hv : ViewInv n a v) : ViewInv n' a' v' := by
  have hn := hv.nonneg
  cases h with
  | absent hle _ => exact ⟨by omega, by simp, by simp⟩
  | @keep uc uc' hle ha hmin hmax hread hcur =>
    have hok := hv.ok uc rfl
    have hmono : visibleMax uc n ≤ visibleMax uc' n' := by
      unfold visibleMax
      rw [hmax]
      split <;> omega
    refine ⟨by omega, ?_, ?_⟩
    · rintro _ ⟨rfl⟩
      obtain ⟨h1, h2, h3, h4, h5⟩ := hok
      exact ⟨by omega, by omega, by omega, by omega, by omega⟩
    · rintro _ ⟨rfl⟩
      rw [hmax, ha]
      exact hv.open_iff uc rfl
  | @appear uc' hle _ ha' hmin hmax hread hcur =>
    refine ⟨by omega, ?_, ?_⟩
    · rintro _ ⟨rfl⟩
      exact ⟨by omega, by omega, by omega, by omega, by rwa [visibleMax_of_open hmax]⟩
    · rintro _ ⟨rfl⟩
      simp [hmax, ha']
  | join hle _ ha' hmin hmax hread =>
    refine ⟨by omega, ?_, ?_⟩
    · rintro _ ⟨rfl⟩
      exact ⟨by omega, by omega, by omega, by omega, by
        rw [visibleMax_of_open hmax]; omega⟩
    · rintro _ ⟨rfl⟩
      simp [hmax, ha']
  | @freeze uc hle hpos ha ha' =>
    obtain ⟨h1, h2, h3, h4, h5⟩ := hv.ok uc rfl
    have hopen := (hv.open_iff uc rfl).2 ha
    rw [visibleMax_of_open hopen] at h5
    refine ⟨by omega, ?_, ?_⟩
    · rintro _ ⟨rfl⟩
      refine ⟨h1, hn, hle.ge, h4, ?_⟩
      rw [visibleMax_of_frozen hpos hle.ge]
      exact h5
    · rintro _ ⟨rfl⟩
      simp only [iff_false_intro ha', iff_false]
      omega
  | drop hle _ _ _ => exact ⟨by omega, by simp, by simp⟩

/-- An active user's row is touched: inserted, or its cursor raised to `t`. -/
theorem touch {uc₀ : UserConversation} {f : UserConversation → UserConversation} {t : Int}
    (hn : n ≤ n') (ha : a) (ha' : a') (hv : ViewInv n a v) (ht : 0 ≤ t) (htn : t ≤ n')
    (hmin : uc₀.minSeq = 1) (hmax : uc₀.maxSeq = 0) (hread : uc₀.readSeq = t)
    (hf : ∀ uc, (f uc).minSeq = uc.minSeq ∧ (f uc).maxSeq = uc.maxSeq ∧
      (f uc).readSeq = max uc.readSeq t) :
    ViewStep n n' a a' v (some ((v.map f).getD uc₀)) := by
  cases v with
  | none => exact .appear hn (fun h ↦ absurd ha h) ha' hmin hmax (by simp; omega) (by simp; omega)
  | some uc =>
    obtain ⟨hfmin, hfmax, hfread⟩ := hf uc
    have hopen : (f uc).maxSeq = 0 := hfmax.trans ((hv.open_iff uc rfl).2 ha)
    refine .keep hn (iff_of_true ha' ha) hfmin hfmax (by simp; omega) ?_
    simp only [map_some, getD_some, visibleMax_of_open hopen]
    omega

/-- **What a user may see never shrinks.** -/
theorem viewMax_mono (h : ViewStep n n' a a' v v') (hv : ViewInv n a v) :
    viewMax n v ≤ viewMax n' v' := by
  have hn := hv.nonneg
  cases h with
  | absent => exact Int.le_refl 0
  | @keep uc uc' hle _ _ hmax _ _ =>
    simp only [viewMax, map_some, getD_some]
    unfold visibleMax
    rw [hmax]
    split <;> omega
  | @appear uc' hle _ _ _ hmax _ _ =>
    simp only [viewMax, map_some, getD_some, visibleMax_of_open hmax]
    exact hn.trans hle
  | join hle _ _ _ hmax _ =>
    simp only [viewMax, map_some, getD_some, visibleMax_of_open hmax]
    cases v with
    | none => simpa using hn.trans hle.ge
    | some uc => simpa using (visibleMax_le uc n).trans hle.ge
  | @freeze uc hle hpos _ _ =>
    simp only [viewMax, map_some, getD_some]
    have hfrozen : visibleMax { uc with maxSeq := n } n' = n :=
      visibleMax_of_frozen hpos (by simp [hle])
    rw [hfrozen]
    exact visibleMax_le uc n
  | @drop uc hle hzero _ _ =>
    simp only [viewMax, map_some, getD_some, map_none, getD_none]
    exact (visibleMax_le uc n).trans hzero.le

/-- **A row that shows something stays**, with its lower bound, unless its owner becomes active
again. -/
theorem stays {uc : UserConversation} (h : ViewStep n n' a a' (some uc) v')
    (hv : ViewInv n a (some uc)) (hpos : 0 < visibleMax uc n) (hno : a' → a) :
    ∃ uc', v' = some uc' ∧ uc'.minSeq = uc.minSeq ∧
      visibleMax uc n ≤ visibleMax uc' n' := by
  have hmono := h.viewMax_mono hv
  have hle := visibleMax_le uc n
  cases h with
  | @keep _ uc' _ _ hmin _ _ _ => exact ⟨uc', rfl, hmin, hmono⟩
  | join _ ha ha' => exact absurd (hno ha') ha
  | freeze => exact ⟨_, rfl, rfl, hmono⟩
  | drop _ hzero => omega

section

variable (h : ViewStep n n' a a' v v')
include h

/-- **A read cursor never moves back** while its row exists. -/
theorem readSeq_mono (hv : ViewInv n a v) {uc uc' : UserConversation}
    (huc : v = some uc) (huc' : v' = some uc') : uc.readSeq ≤ uc'.readSeq := by
  have hread := (hv.ok uc huc).read_le
  have hvis := visibleMax_le uc n
  subst huc
  cases h with
  | keep _ _ _ _ hle _ =>
    cases huc'
    exact hle
  | join _ _ _ _ _ hr =>
    cases huc'
    omega
  | freeze =>
    cases huc'
    exact Int.le_refl _
  | drop => cases huc'

/-- A row disappears only while the conversation has no message. -/
theorem eq_zero_of_drop {uc : UserConversation} (huc : v = some uc)
    (hnone : v' = none) : n' = 0 := by
  subst huc hnone
  cases h with
  | drop hn hzero => omega

/-- Whoever leaves, no message arrives at that moment. -/
theorem eq_of_leave (ha : a) (ha' : ¬ a') : n' = n := by
  cases h with
  | absent _ hiff | keep _ hiff => exact absurd (hiff.2 ha) ha'
  | appear _ _ h => exact absurd h ha'
  | join hn | freeze hn | drop hn => exact hn

theorem isSome_of_active (hv : a → v.isSome) (ha' : a') :
    v'.isSome := by
  cases h with
  | absent _ ha => exact absurd (hv (ha.1 ha')) (by simp)
  | drop _ _ _ hna => exact absurd ha' hna
  | _ => rfl

/-! ### Visibility along one transition -/

/-- **An old message** stays visible or invisible, except that a join hides it. -/
theorem visible_old (hv : ViewInv n a v) (hav : a → v.isSome) {s : Int}
    (hs : 1 ≤ s) (hsn : s ≤ n) : Visible n' v' s ↔ Visible n v s ∧ (a' → a) := by
  have hn := hv.nonneg
  cases h with
  | absent => simp [Visible]
  | @keep uc uc' hle ha hmin hmax _ _ =>
    have hvis : s ≤ visibleMax uc' n' ↔ s ≤ visibleMax uc n := by
      have hok := (hv.ok uc rfl).max_le
      unfold visibleMax
      rw [hmax]
      split <;> omega
    simp [Visible, hmin, hvis, ha]
  | @appear uc' hle ha _ _ _ _ _ =>
    have hna : ¬ a := fun h ↦ absurd (hav h) (by simp)
    have := ha hna
    omega
  | join _ ha ha' hmin _ _ =>
    have hhid : ¬ n + 1 ≤ s := by omega
    simp [Visible, hmin, hhid, ha, ha']
  | @freeze uc hle hpos ha ha' =>
    have hopen := (hv.open_iff uc rfl).2 ha
    have hvis : visibleMax { uc with maxSeq := n } n' = visibleMax uc n := by
      rw [visibleMax_of_open hopen, visibleMax_of_frozen hpos (by simp [hle])]
    simp [Visible, hvis, ha]
  | drop hle hzero => omega

/-- **A new message** is visible to exactly the active users. -/
theorem visible_new (hv : ViewInv n a v) (hav : a → v.isSome)
    (hn' : n' = n + 1) : Visible n' v' n' ↔ a' := by
  have hn := hv.nonneg
  cases h with
  | absent _ ha =>
    have hna : ¬ a := fun h ↦ absurd (hav h) (by simp)
    simp [Visible, ha, hna]
  | @keep uc uc' hle ha hmin hmax _ _ =>
    have hok := hv.ok uc rfl
    have hle := hok.max_le
    have hge := hok.max_nonneg
    have hopen := hv.open_iff uc rfl
    have hmin' := hok.min_le
    simp only [Visible, some.injEq, exists_eq_left', hmin, ha, ← hopen]
    unfold visibleMax
    rw [hmax]
    split <;> omega
  | @appear uc' hle ha _ _ _ _ _ =>
    have hna : ¬ a := fun h ↦ absurd (hav h) (by simp)
    have := ha hna
    omega
  | join | freeze | drop => omega

end

end ViewStep

end Nexo
