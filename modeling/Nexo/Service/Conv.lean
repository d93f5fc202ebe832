import Nexo.Store.Schema
import Mathlib.Data.List.Basic
import Mathlib.Data.String.Basic

/-!
# Conversation ids and visible ranges

`service/conv`: a single chat is `si_<a>:<b>` with the smaller user id first, a group chat is
`sg_<group_id>`; and the decoding of a `user_conversations` row into the range of sequence numbers
its owner may see. Go compares strings bytewise; on strings of Unicode scalar values that is the
order of Lean's `String`.
-/

namespace Nexo.Conv

/-- `conv.Single` -/
def single (a b : String) : String :=
  let (a, b) := if b < a then (b, a) else (a, b)
  "si_" ++ a ++ ":" ++ b

/-- `conv.Group` -/
def group (groupId : String) : String := "sg_" ++ groupId

/-- `conv.VisibleMax` -/
def visibleMax (uc : UserConversation) (convMax : Int) : Int :=
  if uc.maxSeq > 0 then min uc.maxSeq convMax else convMax

/-- `conv.VisibleRange`: the requested range clipped to what the owner may see. -/
def visibleRange (uc : UserConversation) (convMax begin_ end_ : Int) : Int × Int :=
  (max begin_ uc.minSeq, min end_ (visibleMax uc convMax))

/-! ### Ids -/

theorem group_injective : Function.Injective group := by
  intro g g' h
  have hd := congrArg String.toList h
  simp only [group, String.toList_append] at hd
  exact String.toList_inj.1 (List.append_cancel_left hd)

theorem group_inj {g g' : String} : group g = group g' ↔ g = g' := group_injective.eq_iff

/-- A single chat is never a group chat. -/
theorem single_ne_group (a b g : String) : single a b ≠ group g := by
  intro h
  have hd := congrArg String.toList h
  simp only [single, group, String.toList_append] at hd
  have h1 := congrArg (·[1]?) hd
  simp at h1

/-- The order of the parties does not matter. -/
theorem single_comm (a b : String) : single a b = single b a := by
  simp only [single]
  rcases lt_trichotomy a b with h | rfl | h
  · rw [if_neg (lt_asymm h), if_pos h]
  · rfl
  · rw [if_pos h, if_neg (lt_asymm h)]

theorem toList_single (a b : String) : (single a b).toList = ['s', 'i', '_'] ++
    ((if b < a then b else a).toList ++ ':' :: (if b < a then a else b).toList) := by
  unfold single
  by_cases h : b < a <;> simp [h]

/-- **A single chat has two parties**, which its id determines as long as they do not contain the
separator. -/
theorem single_eq_single {a b a' b' : String} (ha : ':' ∉ a.toList) (hb : ':' ∉ b.toList)
    (h : single a b = single a' b') : (a = a' ∧ b = b') ∨ (a = b' ∧ b = a') := by
  have hd := congrArg String.toList h
  rw [toList_single, toList_single, List.append_cancel_left_eq,
    List.append_cons_inj_of_notMem (by split <;> assumption) (by split <;> assumption)] at hd
  obtain ⟨h₁, -, h₂⟩ := hd
  rw [String.toList_inj] at h₁ h₂
  by_cases hab : b < a <;> by_cases hab' : b' < a'
  · rw [if_pos hab, if_pos hab'] at h₁ h₂
    exact .inl ⟨h₂, h₁⟩
  · rw [if_pos hab, if_neg hab'] at h₁ h₂
    exact .inr ⟨h₂, h₁⟩
  · rw [if_neg hab, if_pos hab'] at h₁ h₂
    exact .inr ⟨h₁, h₂⟩
  · rw [if_neg hab, if_neg hab'] at h₁ h₂
    exact .inl ⟨h₁, h₂⟩

/-! ### Ranges -/

theorem visibleMax_of_open {uc : UserConversation} (h : uc.maxSeq = 0) (n : Int) :
    visibleMax uc n = n := by
  simp [visibleMax, h]

theorem visibleMax_of_frozen {uc : UserConversation} {n : Int} (h : 0 < uc.maxSeq)
    (hn : uc.maxSeq ≤ n) : visibleMax uc n = uc.maxSeq := by
  rw [visibleMax, if_pos h]
  omega

theorem visibleMax_le (uc : UserConversation) (n : Int) : visibleMax uc n ≤ n := by
  unfold visibleMax
  split <;> omega

end Nexo.Conv
