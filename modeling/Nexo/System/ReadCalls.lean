import Nexo.System.Rules

/-!
# The calls without a transaction follow the specification

`MarkRead`, `SetOpt` and `Pull`: single statements, between which anything may be committed. What
`MarkRead` computes from the row it read is still within bounds when it is written, because **what a
user may see never shrinks** (`visibleMax_mono`).
-/

namespace Nexo

open Relational Errcode List

variable {cfg : Config} {users : Table User String User.keys} {pid : ℕ} {H : History cfg users}

/-! ### MarkRead -/

section MarkRead

variable {u conn c : String} {n : Int}

theorem read_refused {err : Err} (hc : Ctx (.markRead u conn c n) [] pid H) :
    (spec cfg users).Returns pid (.read (.error err)) .out H :=
  returns hc fun _ hc' _ ↦ .readError hc'.marks

/-- The target of `MarkRead` is within what the user may see, now and at any later moment. -/
theorem target_le {row : UserConversationRow} {target : Int} {H₀ : History cfg users}
    (hv : (spec cfg users).Valid H) (hrow : SawAt H pid (.getUserConversationRow u c) (.ok row) H₀)
    (htarget : target ≤ Conv.visibleMax row.toUserConversation row.convMaxSeq) :
    target ≤ (Trace.db H).visibleMax u c := by
  have hmono := visibleMax_mono hv hrow.suffix u c
  rw [visibleMax_of_row (hrow.row hv)] at hmono
  omega

theorem wp_advance {row : UserConversationRow} {target : Int} {H₀ : History cfg users}
    (hc : Ctx (.markRead u conn c n) [] pid H)
    (hrow : SawAt H pid (.getUserConversationRow u c) (.ok row) H₀)
    (htarget : target ≤ Conv.visibleMax row.toUserConversation row.convMaxSeq) :
    (spec cfg users).wp pid (do
      match ← update (.advanceReadSeq u c target) with
      | .error e => return .error (errStoreFailed.wrap (.store e))
      | .ok () =>
        ext (.conversationRead ⟨u, conn, c, target⟩)
        return .ok target) .out H fun r ↦ (spec cfg users).Returns pid (.read r) := by
  refine wp_update (nil_subset _) hc (fun H' hc' hs ↦ ?_) ?_ fun H' hc' ↦ read_refused hc'
  · exact .readWrite hc'.marks (hrow.mono hs) htarget (.read (target_le hc'.valid (hrow.mono hs) htarget))
  · rintro H₁ r d hexec hc₁ hs₁
    cases hexec
    refine wp_announce (k := .cursor ⟨u, conn, c, target⟩) (fun _ ↦ rfl) hc₁
      (fun H' _ hc' hs ↦ .readNotify hc'.marks (hrow.mono (hs₁.trans hs)) htarget)
      fun H₂ _ hc₂ hs₂ ↦ ?_
    exact returns hc₂ fun H' _ hs ↦ .readOk (hrow.mono ((hs₁.trans hs₂).trans hs)) htarget

theorem wp_markRead (hc : Ctx (.markRead u conn c n) [] pid H) :
    (spec cfg users).wp pid (Conversation.markRead u conn c n) .out H
      fun r ↦ (spec cfg users).Returns pid (.read r) := by
  unfold Conversation.markRead
  split
  · exact read_refused hc
  refine wp_query hc fun H₁ r hc₁ _ hr ↦ ?_
  match r, hr with
  | .error .notFound, _ | .error .duplicate, _ | .error .failed, _ => exact read_refused hc₁
  | .ok row, hr =>
    have hexec := exec_of_ok (q := .getUserConversationRow u c) hr
    have hrow : (Trace.db H₁).userConversationRow u c = some row := one_eq_ok.1 hexec
    obtain ⟨hview, hmax⟩ := view_of_row hrow
    have hconv : row.conversationId = c := (ownerKey_eq_of_get hview).2
    change (spec cfg users).wp pid (if _ then _ else _) _ _ _
    split
    · have hok := ((inv_of_valid hc₁.valid.tail).views u c).ok _ hview
      refine returns hc₁ fun H' hc' hs ↦ .readOk (SawAt.now.mono hs) ?_
      rw [← hmax]
      exact hok.read_le
    · rw [hconv]
      exact wp_advance hc₁ .now (by omega)

end MarkRead

/-! ### SetOpt -/

theorem wp_setOpt {u c : String} {opt : Option Int} {pinned : Option Bool}
    (hc : Ctx (.setOpt u c opt pinned) [] pid H) :
    (spec cfg users).wp pid (Conversation.setOpt u c opt pinned) .out H
      fun r ↦ (spec cfg users).Returns pid (.done r) := by
  have hret : ∀ {H' ms} r, Ctx (.setOpt u c opt pinned) ms pid H' →
      (spec cfg users).Returns pid (.done r) .out H' :=
    fun r hc' ↦ returns hc' fun _ _ _ ↦ .optRet
  unfold Conversation.setOpt
  split
  · exact hret _ hc
  refine wp_update (nil_subset _) hc (fun H' _ _ ↦ .optWrite) ?_ fun H' hc' ↦ hret _ hc'
  intro H₁ r d _ hc₁ _
  match r with
  | .error .notFound | .error .duplicate | .error .failed => exact hret _ hc₁
  | .ok () => exact hret _ hc₁

/-! ### Pull -/

theorem wp_pull {inp : Message.PullInput} {pageMax : Int} (hc : Ctx (.pull inp pageMax) [] pid H) :
    (spec cfg users).wp pid (Message.pull inp pageMax) .out H
      fun r ↦ (spec cfg users).Returns pid (.page r) := by
  unfold Message.pull
  split
  · next hrange => exact returns hc fun _ _ _ ↦ .pullRet (.invalid hrange)
  refine wp_query hc fun H₁ r hc₁ _ hr ↦ ?_
  have herr : ∀ {e : StoreErr} {err : Err}, r = .error e →
      (spec cfg users).Returns pid (.page (.error err)) .out
        (⟨some pid, .stmt (.query (.getUserConversationRow inp.userId inp.conversationId)) r,
          Trace.db H₁⟩ :: H₁) := by
    rintro e err rfl
    exact returns hc₁ fun _ _ hs ↦ .pullRet (.noRow (SawAt.now.mono hs))
  match r, hr with
  | .error .notFound, _ | .error .duplicate, _ | .error .failed, _ => exact herr rfl
  | .ok uc, hr =>
    change (spec cfg users).wp pid (if _ then _ else _) _ _ _
    split
    · next hempty => exact returns hc₁ fun _ _ hs ↦ .pullRet (.empty (SawAt.now.mono hs) hempty)
    · next hbe =>
      refine wp_query hc₁ fun H₂ r₂ hc₂ hs₂ hr₂ ↦ ?_
      match r₂, hr₂ with
      | .error e, _ =>
        exact returns hc₂ fun _ _ hs ↦ .pullRet (.failed
          (SawAt.now.mono (hs₂.trans ((suffix_cons _ _).trans hs))) rfl (SawAt.now.mono hs))
      | .ok rows, _ =>
        exact returns hc₂ fun _ _ hs ↦ .pullRet (.page
          (SawAt.now.mono (hs₂.trans ((suffix_cons _ _).trans hs))) rfl (by omega)
          (SawAt.now.mono hs) ((suffix_cons _ _).trans hs₂))

end Nexo
