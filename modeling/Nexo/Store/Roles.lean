import Nexo.Store.Isolation

/-!
# What the locks protect while roles keep still

`Nexo.Store.Isolation` lets a role change at any time. Suppose roles change only under the lock of
the group's conversation, or not at all. Then that lock protects whole member rows (`AgreeRoles`),
and the result of a statement that holds its keys is exactly the one it would have on the tables as
they are (`exactly`). Only a group's status is left out: `Settled` does not cover the statement that
reads it.
-/

namespace Nexo

open Relational Update

/-- The tables agree, and the member rows of locked groups are the same, roles included. -/
structure AgreeRoles (ks : List Key) (d d' : Db) : Prop extends Agree ks d d' where
  rows : ∀ g u, .conv (Conv.group g) ∈ ks → d.members.get (g, u) = d'.members.get (g, u)

/-- The result of a statement is settled by the keys held while roles keep still. -/
def Settled (ks : List Key) (s : Stmt) : Prop := Reads ks s ∧ ∀ id, s ≠ .query (.getGroup id)

section Members

variable {ks : List Key} {d d' : Db} {g u : String}

/-- An update that needs only what is held changes the member rows in the same way. -/
theorem AgreeRoles.rows_exec {x : Update} (hx : x.needs ⊆ ks) (h : AgreeRoles ks d d')
    (hg : .conv (Conv.group g) ∈ ks) :
    (x.exec d).2.members.get (g, u) = (x.exec d').2.members.get (g, u) := by
  have hrow := h.rows g u hg
  cases x with
  | createGroup r =>
    have hfree := free_group_congr h.toAgree (hx (by simp [needs]) : .group r.id ∈ ks)
    by_cases hf : d.groups.Free r
    · simp only [exec, if_pos hf, if_pos (hfree.1 hf)]
      exact hrow
    · simpa only [exec, if_neg hf, if_neg (mt hfree.2 hf)] using hrow
  | addGroupMembers ms =>
    have hk : ∀ m ∈ ms, .member m.groupId m.userId ∈ ks :=
      fun m hm ↦ hx (List.mem_map.2 ⟨m, hm, rfl⟩)
    obtain ⟨ht, ht'⟩ | ⟨t, t', ht, ht'⟩ := none_or_some (addGroupMembers_congr h.toAgree hk)
    · simpa only [exec, ht, ht'] using hrow
    · simp only [exec, ht, ht']
      rw [Table.get_of_insertAll? ht, Table.get_of_insertAll? ht', hrow]
  | addGroupMember m =>
    have hfree := free_member_congr h.toAgree
      (hx (by simp [needs]) : .member m.groupId m.userId ∈ ks)
    by_cases hf : d.members.Free m
    · simp only [exec, if_pos hf, if_pos (hfree.1 hf), Db.get_addGroupMember, hrow]
    · simpa only [exec, if_neg hf, if_neg (mt hfree.2 hf)] using hrow
  | removeGroupMember g' u' => simp only [exec, Db.get_removeGroupMember, hrow]
  | createUserConversations ucs =>
    obtain ⟨ht, ht'⟩ | ⟨t, t', ht, ht'⟩ := none_or_some (createUserConversations_congr h.toAgree
      fun uc huc ↦ hx (List.mem_map.2 ⟨uc, huc, rfl⟩))
    · simpa only [exec, ht, ht'] using hrow
    · simpa only [exec, ht, ht'] using hrow
  | _ => exact hrow

/-- An update that does not touch a group's conversation leaves its member rows alone. -/
theorem rows_write {x : Update} (hx : .conv (Conv.group g) ∉ x.touches) :
    (x.exec d).2.members.get (g, u) = d.members.get (g, u) := by
  cases x with
  | createGroup r =>
    simp only [exec]
    split <;> rfl
  | addGroupMembers ms =>
    rcases ht : d.members.insertAll? ms with - | t
    · simp only [exec, ht]
    · simp only [exec, ht]
      refine Table.get_of_insertAll?_of_notMem ht fun m hm hkey ↦ hx ?_
      obtain ⟨rfl, -⟩ := memberKey_eq_of_mem_keys hkey
      exact List.mem_flatMap.2 ⟨m, hm, by simp⟩
  | addGroupMember m =>
    have hne : ¬ (g = m.groupId ∧ u = m.userId) := by
      rintro ⟨rfl, -⟩
      exact hx (by simp [touches])
    simp only [exec]
    split
    · rw [Db.get_addGroupMember, if_neg hne]
    · rfl
  | removeGroupMember g' u' =>
    have hne : ¬ (g = g' ∧ u = u') := by
      rintro ⟨rfl, -⟩
      exact hx (by simp [touches])
    simp only [exec]
    rw [Db.get_removeGroupMember, if_neg hne]
  | createUserConversations ucs =>
    simp only [exec]
    split <;> rfl
  | _ => rfl

end Members

/-- While roles keep still, the result of a settled statement is the same on all tables that
agree. -/
theorem AgreeRoles.result_eq {ks : List Key} {d d' : Db} {s : Stmt} (hs : Settled ks s)
    (h : AgreeRoles ks d d') : (s.exec d).1 = (s.exec d').1 := by
  obtain ⟨hreads, hnot⟩ := hs
  cases s with
  | update x => exact result_congr hreads h.toAgree
  | query q =>
    cases q with
    | getGroup id => exact absurd rfl (hnot id)
    | getGroupMember g u => exact congrArg one (h.rows g u hreads)
    | countGroupMembers g =>
      have hcount := h.count g hreads
      exact congrArg (fun n : ℕ ↦ Except.ok (n : Int)) hcount
    | lockConversation c => exact congrArg one (h.conversations c hreads)
    | _ => exact hreads.elim

/-- **The locks isolate exactly** while roles keep still. -/
def exactly : Isolation sig where
  Agree := AgreeRoles
  Adm s d r := r = (s.exec d).1
  Reads := Settled
  Writes := Writes
  agree_refl ks d := ⟨.refl ks d, fun _ _ _ ↦ rfl⟩
  agree_trans h h' := ⟨h.toAgree.trans h'.toAgree,
    fun g u hg ↦ (h.rows g u hg).trans (h'.rows g u hg)⟩
  agree_mono hks h := ⟨h.toAgree.mono hks, fun g u hg ↦ h.rows g u (hks hg)⟩
  reads_mono hks hs := ⟨Nexo.reads_mono hks hs.1, hs.2⟩
  adm_exec _ _ := rfl
  adm_stable hs h hr := Eq.trans hr (h.result_eq hs)
  agree_exec {_ s _ _} hs h := match s with
    | .query _ => h
    | .update _ => ⟨Nexo.agree_exec hs.1 h.toAgree, fun _ _ hg ↦ h.rows_exec hs.1 hg⟩
  agree_write {_ _ s _} hs hd := match s with
    | .query _ => ⟨.refl _ _, fun _ _ _ ↦ rfl⟩
    | .update _ => ⟨Nexo.agree_write fun _ hk hk' ↦ hd hk' (hs hk),
        fun _ _ hg ↦ (rows_write fun hk ↦ hd hg (hs hk)).symm⟩

end Nexo
