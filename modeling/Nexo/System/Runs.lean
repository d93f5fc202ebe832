import Nexo.System.ReadCalls
import Nexo.System.SendCalls
import Nexo.Lib.Serial

/-!
# What a call has done

Every history of the system is valid (`valid_of_reachable`), so the effects of a call are those the
specification allows, in the order it allows. This module reads them off: `SendRun` and `MemberRun`
list everything a call may have done so far, and `unchanged` says that apart from its one commit it
has left the tables alone.
-/

namespace Nexo

open Relational Message Errcode List

variable {cfg : Config} {users : Table User String User.keys} {pid : ℕ}

/-! ### Every history is valid -/

/-- **Every call follows the specification.** -/
theorem spec_sound : (spec cfg users).Sound where
  start req _ hnew := .inl ⟨req, rfl, rfl, hnew⟩
  env _ henv := ⟨rfl, henv⟩
  prog := by
    intro H pid req hv hnew
    have hc : Ctx req [] pid (⟨some pid, .start req, Trace.db H⟩ :: H) := by
      refine ⟨hv, ⟨_, mem_cons_self⟩, ?_⟩
      rw [marks_cons_self, marks_eq_nil hnew]
      rfl
    cases req with
    | send inp => exact Spec.wp_bind.2 (wp_send hc)
    | create owner inp => exact Spec.wp_bind.2 (wp_create hc)
    | join g u => exact Spec.wp_bind.2 (wp_join hc)
    | quit g u => exact Spec.wp_bind.2 (wp_quit hc)
    | kick g op u => exact Spec.wp_bind.2 (wp_kick hc)
    | markRead u conn c n => exact Spec.wp_bind.2 (wp_markRead hc)
    | setOpt u c opt pinned => exact Spec.wp_bind.2 (wp_setOpt hc)
    | pull inp pageMax => exact Spec.wp_bind.2 (wp_pull hc)

theorem valid_of_reachable {w : World (system cfg users)} (h : Reachable (system cfg users) w) :
    (spec cfg users).Valid w.trace :=
  Spec.valid_of_reachable spec_sound h

/-! ### One request per process -/

section Requests

variable {H H' : History cfg users} {req : Request}

theorem started_unique (hv : (spec cfg users).Valid H) {req' : Request} (h : Started H pid req)
    (h' : Started H pid req') : req = req' := by
  induction hv with
  | nil => obtain ⟨d, hd⟩ := h; cases hd
  | @cons H e hv he ih =>
    have hold : ∀ {r}, Started (e :: H) pid r → (∃ d, e = ⟨some pid, .start r, d⟩) ∨
        Started H pid r := by
      rintro r ⟨d, hd⟩
      rcases mem_cons.1 hd with heq | hd
      · exact .inl ⟨d, heq.symm⟩
      · exact .inr ⟨d, hd⟩
    have hfresh : ∀ {r d}, e = ⟨some pid, .start r, d⟩ → ∀ {r'}, ¬ Started H pid r' := by
      rintro r d rfl r' ⟨d', hd'⟩
      rcases he with ⟨_, -, -, hnew⟩ | ⟨_, -, hdoes⟩
      · exact hnew _ hd' rfl
      · cases hdoes with
        | quiet hq => cases hq
    rcases hold h with ⟨d, hd⟩ | h <;> rcases hold h' with ⟨d', hd'⟩ | h'
    · have hev := congrArg Entry.event (hd.symm.trans hd')
      exact Event.start.inj hev
    · exact absurd h' (hfresh hd)
    · exact absurd h (hfresh hd')
    · exact ih h h'

/-- What the last entry of a process was: the start of its call, or what the call may do. -/
theorem does_of_entry {ev : Event (system cfg users)} {d : Db}
    (hv : (spec cfg users).Valid (⟨some pid, ev, d⟩ :: H))
    (hreq : Started (⟨some pid, ev, d⟩ :: H) pid req) :
    (ev = .start req ∧ d = Trace.db H ∧ ∀ e ∈ H, e.who ≠ some pid) ∨
      (Started H pid req ∧ Does H pid req ev d) := by
  rcases hv.head with ⟨req', hev, hd, hnew⟩ | ⟨req', hstart, hdoes⟩
  · subst hev
    refine .inl ⟨?_, hd, hnew⟩
    rw [started_unique hv hreq ⟨d, mem_cons_self⟩]
  · obtain rfl := started_unique hv hreq (hstart.mono (suffix_cons _ _))
    exact .inr ⟨hstart, hdoes⟩

/-- Every effect of a call was allowed when the call had it. -/
theorem does_of_mark {k : Mark} (hv : (spec cfg users).Valid H) (hreq : Started H pid req)
    (hk : k ∈ marks pid H) :
    ∃ ev d H₀, ⟨some pid, ev, d⟩ :: H₀ <:+ H ∧ mark ev = some k ∧ Does H₀ pid req ev d := by
  obtain ⟨⟨who, ev, d⟩, he, hwho, hmark⟩ := mem_marks.1 hk
  obtain rfl : who = some pid := hwho
  obtain ⟨new, H₀, rfl⟩ := append_of_mem he
  have hs : ⟨some pid, ev, d⟩ :: H₀ <:+ new ++ ⟨some pid, ev, d⟩ :: H₀ := suffix_append _ _
  refine ⟨ev, d, H₀, hs, hmark, ?_⟩
  rcases (hv.of_suffix hs).head with ⟨req', hev, -⟩ | ⟨req', hstart, hdoes⟩
  · obtain rfl : ev = .start req' := hev
    cases hmark
  · obtain rfl := started_unique hv hreq (hstart.mono ((suffix_cons _ _).trans hs))
    exact hdoes

theorem started_of_other {e : Entry (system cfg users)} (he : e.who ≠ some pid)
    (h : Started (e :: H) pid req) : Started H pid req := by
  obtain ⟨d, hd⟩ := h
  rcases mem_cons.1 hd with rfl | hd
  · exact absurd rfl he
  · exact ⟨d, hd⟩

end Requests

/-! ### Send -/

section Send

variable {H H' : History cfg users} {inp : SendInput} {ms : List Mark}

/-- A committed message is stored under the key of its send. -/
theorem Committed.stored {m : Message} (h : Committed H pid (.send inp.normalize m))
    (hv : (spec cfg users).Valid H) : StoredFor (Trace.db H) inp m := by
  obtain ⟨d, H₀, hs, hchange⟩ := h
  have hm : StoredFor d inp.normalize m := hchange.client_of_send.2
  exact StoredFor.later (H := ⟨some pid, .commit, d⟩ :: H₀) (StoredFor.normalize_iff.1 hm) hv hs

/-- Is the effect the start of an offline push? -/
def Mark.isOffline : Mark → Bool
  | .offline _ => true
  | _ => false

/-- **Everything a send may have done**, newest effect first. -/
inductive SendRun (H : History cfg users) (pid : ℕ) (inp : SendInput) : List Mark → Prop where
  /-- nothing yet -/
  | idle : SendRun H pid inp []
  /-- it returned an error, without any effect -/
  | refused {err : Err} (hseq : FreshIds H → err.is errSeqAllocFailed = false) :
      SendRun H pid inp [.returned (.ack (.error err))]
  /-- it found the message stored: published it again, or acknowledged it, or both -/
  | again {m : Message} {ms : List Mark} (hm : StoredFor (Trace.db H) inp m)
      (hms : ms = [.published (pushEvent m inp.senderConnId)] ∨
        ms = [.returned (.ack (.ok (ack m)))] ∨
        ms = [.returned (.ack (.ok (ack m))), .published (pushEvent m inp.senderConnId)]) :
      SendRun H pid inp ms
  /-- it committed the message: then it published it, perhaps started the offline push, and
  acknowledged it -/
  | new {m : Message} {ms : List Mark} (hm : Committed H pid (.send inp.normalize m))
      (hms : ms = [.commit] ∨ ms = [.published (pushEvent m inp.senderConnId), .commit] ∨
        ms = [.offline (pushEvent m inp.senderConnId), .published (pushEvent m inp.senderConnId),
          .commit] ∨
        ms = [.returned (.ack (.ok (ack m))), .published (pushEvent m inp.senderConnId), .commit] ∨
        ms = [.returned (.ack (.ok (ack m))), .offline (pushEvent m inp.senderConnId),
          .published (pushEvent m inp.senderConnId), .commit]) :
      SendRun H pid inp ms

theorem SendRun.committed (h : SendRun H pid inp ms) (hc : Mark.commit ∈ ms) :
    ∃ m, Committed H pid (.send inp.normalize m) := by
  cases h with
  | idle => cases hc
  | refused => simp at hc
  | again _ hms => rcases hms with rfl | rfl | rfl <;> simp at hc
  | @new m _ hm _ => exact ⟨m, hm⟩

/-- A send that returned an error has done nothing else. -/
theorem SendRun.of_error {err : Err} (h : SendRun H pid inp ms)
    (herr : Mark.returned (.ack (.error err)) ∈ ms) :
    ms = [.returned (.ack (.error err))] ∧ (FreshIds H → err.is errSeqAllocFailed = false) := by
  cases h with
  | idle => cases herr
  | refused hseq =>
    obtain rfl : err = _ := by simpa using herr
    exact ⟨rfl, hseq⟩
  | again _ hms => rcases hms with rfl | rfl | rfl <;> simp at herr
  | new _ hms => rcases hms with rfl | rfl | rfl | rfl | rfl <;> simp at herr

/-- What a send acknowledges is the stored message. -/
theorem SendRun.of_ack {a : Ack} (h : SendRun H pid inp ms) (hv : (spec cfg users).Valid H)
    (ha : Mark.returned (.ack (.ok a)) ∈ ms) :
    ∃ m, StoredFor (Trace.db H) inp m ∧ a = ack m := by
  cases h with
  | idle => cases ha
  | refused => simp at ha
  | @again m _ hm hms => exact ⟨m, hm, by rcases hms with rfl | rfl | rfl <;> simp_all⟩
  | @new m _ hm hms =>
    exact ⟨m, hm.stored hv, by rcases hms with rfl | rfl | rfl | rfl | rfl <;> simp_all⟩

/-- What a send publishes is the stored message. -/
theorem SendRun.of_published {ev : PushEvent} (h : SendRun H pid inp ms)
    (hv : (spec cfg users).Valid H) (hev : Mark.published ev ∈ ms) :
    ∃ m, StoredFor (Trace.db H) inp m ∧ ev = pushEvent m inp.senderConnId := by
  cases h with
  | idle => cases hev
  | refused => simp at hev
  | @again m _ hm hms => exact ⟨m, hm, by rcases hms with rfl | rfl | rfl <;> simp_all⟩
  | @new m _ hm hms =>
    exact ⟨m, hm.stored hv, by rcases hms with rfl | rfl | rfl | rfl | rfl <;> simp_all⟩

/-- The offline push is started once, and only by the send that stored the message. -/
theorem SendRun.of_offline {ev : PushEvent} (h : SendRun H pid inp ms) (hev : Mark.offline ev ∈ ms) :
    Mark.commit ∈ ms ∧ (ms.filter Mark.isOffline).length = 1 := by
  cases h with
  | idle => cases hev
  | refused => simp at hev
  | again _ hms => rcases hms with rfl | rfl | rfl <;> simp at hev
  | new _ hms =>
    rcases hms with rfl | rfl | rfl | rfl | rfl
    · simp at hev
    · simp at hev
    · exact ⟨by simp, rfl⟩
    · simp at hev
    · exact ⟨by simp, rfl⟩

theorem SendRun.later (h : SendRun H pid inp ms) (hv : (spec cfg users).Valid H') (hs : H <:+ H') :
    SendRun H' pid inp ms := by
  cases h with
  | idle => exact .idle
  | refused hseq => exact .refused fun hfresh ↦ hseq (hfresh.of_suffix hs)
  | again hm hms => exact .again (hm.later hv hs) hms
  | new hm hms => exact .new (hm.mono hs) hms

theorem sendRun (hv : (spec cfg users).Valid H) (hstart : Started H pid (.send inp)) :
    SendRun H pid inp (marks pid H) := by
  induction hv with
  | nil => obtain ⟨d, hd⟩ := hstart; cases hd
  | @cons H e hv he ih =>
    have hv' := Spec.Valid.cons hv he
    have hs : H <:+ e :: H := suffix_cons e H
    by_cases hwho : e.who = some pid
    swap
    · rw [marks_cons_other hwho]
      exact (ih (started_of_other hwho hstart)).later hv' hs
    obtain ⟨who, ev, d⟩ := e
    obtain rfl : who = some pid := hwho
    rw [marks_cons_self]
    rcases does_of_entry hv' hstart with ⟨rfl, -, hnew⟩ | ⟨hold, hdoes⟩
    · rw [marks_eq_nil hnew]
      exact .idle
    cases hdoes with
    | quiet hq =>
      rw [mark_of_quiet hq]
      exact (ih hold).later hv' hs
    | sendCommit hmarks hchange _ _ =>
      rw [hmarks]
      exact .new ⟨_, H, suffix_refl _, hchange⟩ (.inl rfl)
    | sendPublish hmarks hm =>
      rw [hmarks]
      exact .new (hm.mono hs) (.inr (.inl rfl))
    | sendOffline hmarks hm =>
      rw [hmarks]
      exact .new (hm.mono hs) (.inr (.inr (.inl rfl)))
    | sendAck hmarks hm =>
      rcases hmarks with hmarks | hmarks
      · rw [hmarks]
        exact .new (hm.mono hs) (.inr (.inr (.inr (.inl rfl))))
      · rw [hmarks]
        exact .new (hm.mono hs) (.inr (.inr (.inr (.inr rfl))))
    | sendRepublish hmarks hm =>
      rw [hmarks]
      exact .again hm (.inl rfl)
    | sendAckAgain hmarks hm =>
      rcases hmarks with hmarks | hmarks
      · rw [hmarks]
        exact .again hm (.inr (.inl rfl))
      · rw [hmarks]
        exact .again hm (.inr (.inr rfl))
    | sendError hmarks hseq =>
      rw [hmarks]
      exact .refused fun hfresh ↦ hseq (hfresh.of_suffix hs)
    | memberCommit _ hreq | memberChanged _ hreq | memberOk _ hreq => cases hreq
    | memberError _ hv => cases hv

end Send

/-! ### The membership calls -/

section Member

variable {H H' : History cfg users} {req : Request}

/-- The membership calls. -/
def Request.isMembership : Request → Bool
  | .create _ _ => true
  | .join _ _ => true
  | .quit _ _ => true
  | .kick _ _ _ => true
  | _ => false

/-- **Everything a membership call may have done**, newest effect first. -/
inductive MemberRun (H : History cfg users) (pid : ℕ) (req : Request) : List Mark → Prop where
  | idle : MemberRun H pid req []
  | refused {v : Response} (hv : Refused req v) : MemberRun H pid req [.returned v]
  | new {a : Action} {ms : List Mark} (hreq : Membership req a) (ha : Committed H pid a)
      (hms : ms = [.commit] ∨ ms = [.changed a.group, .commit] ∨
        ms = [.returned a.answer, .changed a.group, .commit]) : MemberRun H pid req ms

theorem MemberRun.mono {ms : List Mark} (h : MemberRun H pid req ms) (hs : H <:+ H') :
    MemberRun H' pid req ms := by
  cases h with
  | idle => exact .idle
  | refused hv => exact .refused hv
  | new hreq ha hms => exact .new hreq (ha.mono hs) hms

theorem memberRun (hv : (spec cfg users).Valid H) (hreq : req.isMembership)
    (hstart : Started H pid req) : MemberRun H pid req (marks pid H) := by
  induction hv with
  | nil => obtain ⟨d, hd⟩ := hstart; cases hd
  | @cons H e hv he ih =>
    have hv' := Spec.Valid.cons hv he
    have hs : H <:+ e :: H := suffix_cons e H
    by_cases hwho : e.who = some pid
    swap
    · rw [marks_cons_other hwho]
      exact (ih (started_of_other hwho hstart)).mono hs
    obtain ⟨who, ev, d⟩ := e
    obtain rfl : who = some pid := hwho
    rw [marks_cons_self]
    rcases does_of_entry hv' hstart with ⟨rfl, -, hnew⟩ | ⟨hold, hdoes⟩
    · rw [marks_eq_nil hnew]
      exact .idle
    cases hdoes with
    | quiet hq =>
      rw [mark_of_quiet hq]
      exact (ih hold).mono hs
    | memberCommit hmarks hmem hchange =>
      rw [hmarks]
      exact .new hmem ⟨_, H, suffix_refl _, hchange⟩ (.inl rfl)
    | memberChanged hmarks hmem ha =>
      rw [hmarks]
      exact .new hmem (ha.mono hs) (.inr (.inl rfl))
    | memberOk hmarks hmem ha =>
      rw [hmarks]
      exact .new hmem (ha.mono hs) (.inr (.inr rfl))
    | memberError hmarks hv =>
      rw [hmarks]
      exact .refused hv
    | _ => cases hreq

end Member

/-! ### What is left alone -/

section Unchanged

variable {H : History cfg users} {req : Request}

/-- Calls whose writes all go through one transaction. -/
def Request.isTransactional : Request → Bool
  | .send _ => true
  | req => req.isMembership

/-- **Apart from its commit, a call leaves the tables alone.** -/
theorem unchanged (hv : (spec cfg users).Valid H) (hreq : req.isTransactional)
    (hstart : Started H pid req) {e : Entry (system cfg users)} {H₀ : History cfg users}
    (hs : e :: H₀ <:+ H) (hwho : e.who = some pid) (hev : e.event ≠ .commit) :
    e.db = Trace.db H₀ := by
  have hv₀ := hv.of_suffix hs
  obtain ⟨who, ev, d⟩ := e
  obtain rfl : who = some pid := hwho
  rcases hv₀.head with ⟨_, -, hd, -⟩ | ⟨req', hstart', hdoes⟩
  · exact hd
  obtain rfl := started_unique hv hstart (hstart'.mono ((suffix_cons _ _).trans hs))
  cases hdoes with
  | quiet hq => cases hq <;> rfl
  | sendCommit | memberCommit => exact absurd rfl hev
  | readWrite | optWrite => cases hreq
  | _ => rfl

/-- A call without a commit among its effects leaves the tables alone. -/
theorem unchanged_of_marks (hv : (spec cfg users).Valid H) (hreq : req.isTransactional)
    (hstart : Started H pid req) (hmarks : Mark.commit ∉ marks pid H)
    {e : Entry (system cfg users)} {H₀ : History cfg users} (hs : e :: H₀ <:+ H)
    (hwho : e.who = some pid) : e.db = Trace.db H₀ := by
  refine unchanged hv hreq hstart hs hwho fun hev ↦ hmarks ((marks_suffix hs).subset ?_)
  obtain ⟨who, ev, d⟩ := e
  obtain rfl : who = some pid := hwho
  obtain rfl : ev = .commit := hev
  rw [marks_cons_self]
  exact mem_cons_self

end Unchanged

/-! ### An example

A group of two: the owner writes, the other member leaves and comes back, the owner writes again and
repeats its first request, and the other member writes, reads, and tries to join once more. -/

/-- Does the entry start this call? -/
def startsCall (pid : ℕ) (req : Request) : Entry (system cfg users) → Bool
  | ⟨who, .start r, _⟩ => decide (who = some pid ∧ r = req)
  | _ => false

theorem started_iff_any {H : History cfg users} {pid : ℕ} {req : Request} :
    Started H pid req ↔ H.any (startsCall pid req) = true := by
  rw [any_eq_true]
  constructor
  · rintro ⟨d, hd⟩
    exact ⟨_, hd, by simp [startsCall]⟩
  · rintro ⟨⟨who, ev, d⟩, he, hstarts⟩
    cases ev with
    | start r =>
      obtain ⟨rfl, rfl⟩ := of_decide_eq_true hstarts
      exact ⟨d, he⟩
    | _ => cases hstarts

instance {H : History cfg users} {pid : ℕ} {req : Request} : Decidable (Started H pid req) :=
  decidable_of_iff' _ started_iff_any

/-- Answers from outside: one clock reading, one id, and a quota that is never used up. -/
def answers (now : Time) (id : String) : ∀ e : Ext, e.Res
  | .now => now
  | .newUuid => id
  | .shortId => id
  | .allow _ _ => true
  | .publish _ => ()
  | .spawnOfflinePush _ => ()
  | .groupChanged _ => ()
  | .conversationRead _ => ()

namespace Demo

def config : Config where
  maxContentBytes := 4096
  maxMembers := 10
  pusher := true
  uuidString _ := none
  jsonValid _ := true

def accounts : Table User String User.keys := (Table.empty.insert ⟨"u___1"⟩).insert ⟨"u___2"⟩

def message (sender client : String) : SendInput where
  senderId := sender
  senderConnId := "conn"
  clientMsgId := client
  sessionType := conversationGroup
  recvId := ""
  groupId := "g"
  contentType := 1
  content := "hi"
  senderRead := true
  unlimited := false

def calls : List (Request × ∀ e : Ext, e.Res) :=
  [(.create "u___1" ⟨"team", "", "", "", ["u___2"]⟩, answers 10 "g"),
   (.send (message "u___1" "k1"), answers 20 "m1"),
   (.quit "g" "u___2", answers 30 ""),
   (.send (message "u___1" "k2"), answers 15 "m2"),
   (.join "g" "u___2", answers 12 ""),
   (.send (message "u___1" "k1"), answers 50 "m3"),
   (.send (message "u___2" "k1"), answers 40 "m4"),
   (.markRead "u___2" "" "sg_g" 9, answers 60 ""),
   (.join "g" "u___2", answers 70 "")]

def trace : History config accounts := (serial (system config accounts) calls 0 []).getD []

def world : World (system config accounts) := World.finished trace calls.length

theorem reachable : Reachable (system config accounts) world := reachable_serial (by decide +kernel)

end Demo

end Nexo
