import Nexo.Client.Web

/-!
# Merging messages is a union of maps

`mergeMessages` receives what the client has of a conversation and a batch that was pulled or
pushed, neither of them sorted or without repetitions. What it makes of them is a map from numbers
to messages in which the batch takes precedence (`mergeMessages_spec`), listed in ascending order.

An ascending list is determined by its lookups, so that every law of merges is one of `Option.or`
(`mergeMessages_congr`): merging a batch twice, merging batches one after the other or all at once,
and merging batches that agree in another order.
-/

namespace Nexo.Web

open Keyed

/-- Batches that agree where both have a message of a number. -/
def Agree (batch batch' : List Dto.Message) : Prop :=
  ∀ s, s ∈ seqs batch → s ∈ seqs batch' → lastOf (·.seq) s batch = lastOf (·.seq) s batch'

section Laws

variable {existing incoming existing' incoming' : List Dto.Message} {s : Int}

/-- Merged messages as a map. -/
theorem lastOf_mergeMessages : lastOf (·.seq) s (mergeMessages existing incoming) =
    (lastOf (·.seq) s incoming).or (lastOf (·.seq) s existing) := by
  obtain ⟨hasc, hget⟩ := mergeMessages_spec existing incoming
  rw [lastOf_of_nodup hasc.nodup, hget]

/-- **Merges are equal as soon as they are equal as maps.** -/
theorem mergeMessages_congr
    (h : ∀ s, (lastOf (·.seq) s incoming).or (lastOf (·.seq) s existing) =
      (lastOf (·.seq) s incoming').or (lastOf (·.seq) s existing')) :
    mergeMessages existing incoming = mergeMessages existing' incoming' := by
  refine (mergeMessages_spec existing incoming).1.eq_of_lastOf (mergeMessages_spec _ _).1 fun s ↦ ?_
  rw [lastOf_mergeMessages, lastOf_mergeMessages, h]

theorem mergeMessages_self : mergeMessages (mergeMessages existing incoming) incoming =
    mergeMessages existing incoming := by
  refine mergeMessages_congr fun s ↦ ?_
  rw [lastOf_mergeMessages, ← Option.or_assoc, Option.or_self]

theorem mergeMessages_append (more : List Dto.Message) :
    mergeMessages (mergeMessages existing incoming) more = mergeMessages existing (incoming ++ more) := by
  refine mergeMessages_congr fun s ↦ ?_
  rw [lastOf_mergeMessages, lastOf_append, Option.or_assoc]

theorem mergeMessages_assoc (more : List Dto.Message) :
    mergeMessages (mergeMessages existing incoming) more =
      mergeMessages existing (mergeMessages incoming more) := by
  refine mergeMessages_congr fun s ↦ ?_
  rw [lastOf_mergeMessages, lastOf_mergeMessages, Option.or_assoc]

/-- Two batches that agree can be merged in either order. -/
theorem mergeMessages_comm {batch batch' : List Dto.Message} (h : Agree batch batch') :
    mergeMessages (mergeMessages existing batch) batch' =
      mergeMessages (mergeMessages existing batch') batch := by
  refine mergeMessages_congr fun s ↦ ?_
  rw [lastOf_mergeMessages, lastOf_mergeMessages]
  exact or_or_comm fun hsome hsome' ↦ h s (isSome_lastOf.1 hsome) (isSome_lastOf.1 hsome')

end Laws

/-- **A merge is the union of two maps, the second of which takes precedence**, in ascending order;
hence the laws of successive merges. -/
theorem merge_messages_union (existing incoming : List Dto.Message) :
    (mergeMessages existing incoming).Pairwise (fun a b ↦ a.seq < b.seq) ∧
    (∀ s, s ∈ seqs (mergeMessages existing incoming) ↔ s ∈ seqs existing ∨ s ∈ seqs incoming) ∧
    (∀ s, (mergeMessages existing incoming).find? (fun message ↦ message.seq = s) =
      ((incoming.filter fun message ↦ message.seq = s).getLast?).or
        (existing.filter fun message ↦ message.seq = s).getLast?) ∧
    mergeMessages (mergeMessages existing incoming) incoming = mergeMessages existing incoming ∧
    (∀ more, mergeMessages (mergeMessages existing incoming) more =
        mergeMessages existing (mergeMessages incoming more) ∧
      mergeMessages (mergeMessages existing incoming) more =
        mergeMessages existing (incoming ++ more)) ∧
    ∀ batches batches' : List (List Dto.Message), batches.Perm batches' →
      (∀ batch ∈ batches, ∀ batch' ∈ batches, Agree batch batch') →
      batches.foldl mergeMessages existing = batches'.foldl mergeMessages existing := by
  obtain ⟨hasc, hget⟩ := mergeMessages_spec existing incoming
  refine ⟨hasc, fun s ↦ mem_seqs_mergeMessages, hget, mergeMessages_self,
    fun more ↦ ⟨mergeMessages_assoc more, mergeMessages_append more⟩,
    fun batches batches' hperm hagree ↦ ?_⟩
  exact hperm.foldl_eq' (fun x hx y hy _ ↦ mergeMessages_comm (hagree x hx y hy)) existing

namespace MergeDemo

/-- A message of a number. -/
def message (seq : Int) (content : String) : Dto.Message :=
  ⟨"", "", "c", seq, 1, "u1", "u2", "", 1, content, 0⟩

/-- A pulled page and a push that repeats its last message. -/
def batches : List (List Dto.Message) :=
  [[message 2 "b", message 3 "c"], [message 3 "c", message 1 "a"]]

end MergeDemo

open MergeDemo in
theorem merge_messages_union_demo :
    (∀ batch ∈ batches, ∀ batch' ∈ batches, Agree batch batch') ∧
    (mergeMessages [message 2 "old"] [message 2 "b", message 1 "a", message 2 "c"]).map
      (fun m ↦ (m.seq, m.content)) = [(1, "a"), (2, "c")] ∧
    batches.foldl mergeMessages [message 2 "old"] =
      batches.reverse.foldl mergeMessages [message 2 "old"] := by
  have hagree : ∀ batch ∈ batches, ∀ batch' ∈ batches, Agree batch batch' := by
    have hall : ∀ batch ∈ batches, ∀ batch' ∈ batches, ∀ s ∈ seqs batch, s ∈ seqs batch' →
        lastOf (·.seq) s batch = lastOf (·.seq) s batch' := by decide +kernel
    exact fun x hx y hy s ↦ hall x hx y hy s
  exact ⟨hagree, by decide +kernel,
    (merge_messages_union [message 2 "old"] []).2.2.2.2.2 _ _ (List.reverse_perm _).symm hagree⟩

end Nexo.Web
