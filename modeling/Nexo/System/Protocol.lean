import Nexo.System.Handler

/-!
# What a call may do

The specification of the system as a predicate on histories: after which history may which entry
come next? For every call it fixes the order of its observable effects — nothing, the commit, the
event that follows it, the return — and ties each of them to the tables:

* the one commit of a call is an action of the ledger, possible in the state it changes;
* an event or an acknowledgement speaks of a message that is stored, or that this call has committed;
* an error is returned only by a call that has had no effect.

`Mark` is an effect others can notice; reads, clock readings and failed statements leave none.
-/

namespace Nexo

open Relational Message Errcode

variable {cfg : Config} {users : Table User String User.keys}

/-! ### Effects of a call -/

/-- An effect of a call. -/
inductive Mark where
  | commit
  | wrote (u : Update)
  | published (ev : PushEvent)
  | offline (ev : PushEvent)
  | changed (groupId : String)
  | cursor (ev : ReadEvent)
  | returned (v : Response)

/-- The effect an event is, if it is one. -/
def mark : Event (system cfg users) → Option Mark
  | .commit => some .commit
  | .stmt (.update u) (.ok _) => some (.wrote u)
  | .ext (.publish ev) _ => some (.published ev)
  | .ext (.spawnOfflinePush ev) _ => some (.offline ev)
  | .ext (.groupChanged g) _ => some (.changed g)
  | .ext (.conversationRead ev) _ => some (.cursor ev)
  | .ret v => some (.returned v)
  | _ => none

/-- The effects of a process so far, newest first. -/
def marks (pid : ℕ) (H : History cfg users) : List Mark :=
  H.filterMap fun e ↦ if e.who = some pid then mark e.event else none

/-- Questions to the outside whose answer is all they are about. -/
def Ext.isQuestion : Ext → Bool
  | .now => true
  | .newUuid => true
  | .shortId => true
  | .allow _ _ => true
  | _ => false

/-! ### Looking back -/

/-- The process serves this request. -/
def Started (H : History cfg users) (pid : ℕ) (req : Request) : Prop :=
  ∃ d, ⟨some pid, .start req, d⟩ ∈ H

/-- The process read `r` from query `q` when the history was `H₀`. -/
def SawAt (H : History cfg users) (pid : ℕ) (q : Query) (r : Except StoreErr q.Val)
    (H₀ : History cfg users) : Prop :=
  ∃ d, ⟨some pid, .stmt (.query q) r, d⟩ :: H₀ <:+ H

/-- The process committed the action `a`. -/
def Committed (H : History cfg users) (pid : ℕ) (a : Action) : Prop :=
  ∃ d H₀, ⟨some pid, .commit, d⟩ :: H₀ <:+ H ∧ Change cfg (Trace.db H₀) a d

/-- The process drew this id. -/
def Drew (H : History cfg users) (pid : ℕ) (id : String) : Prop :=
  ∃ d, ⟨some pid, .ext .newUuid id, d⟩ ∈ H

/-- A process that sends to a single chat has found the receiver. -/
def Found (H : History cfg users) (pid : ℕ) (inp : SendInput) : Prop :=
  inp.sessionType = conversationSingle → ∃ u H₀, SawAt H pid (.getUser inp.recvId) (.ok u) H₀

/-- The id an entry draws. -/
def drawn (e : Entry (system cfg users)) : Option String :=
  match e.event with
  | .ext .newUuid id => some id
  | _ => none

/-- No id was drawn twice. -/
def FreshIds (H : History cfg users) : Prop := (H.filterMap drawn).Nodup

/-- The message stored under the idempotency key of a send. -/
def StoredFor (d : Db) (inp : SendInput) (m : Message) : Prop :=
  d.messages.get (.client inp.conversation inp.senderId inp.clientMsgId) = some m

/-! ### The calls -/

/-- Events without effect: a query answered or failed, a write failed, a question answered. -/
inductive Quiet (H : History cfg users) : Event (system cfg users) → Db → Prop where
  | query (q : Query) : Quiet H (.stmt (.query q) (q.exec (Trace.db H))) (Trace.db H)
  | queryFailed (q : Query) : Quiet H (.stmt (.query q) (.error .failed)) (Trace.db H)
  | updateFailed (u : Update) : Quiet H (.stmt (.update u) (.error .failed)) (Trace.db H)
  | question {e : Ext} (he : e.isQuestion) (r : e.Res) : Quiet H (.ext e r) (Trace.db H)

/-- The membership actions a request may commit. -/
inductive Membership : Request → Action → Prop where
  | create {owner : String} {inp : Group.CreateInput} {g : Group} (ho : g.ownerId = owner) :
      Membership (.create owner inp) (.create g (Group.uniq (owner :: inp.memberIds)))
  | join {g u : String} : Membership (.join g u) (.join g u)
  | quit {g u : String} : Membership (.quit g u) (.leave g u)
  | kick {g op u : String} : Membership (.kick g op u) (.leave g u)

/-- The group a membership action is about. -/
def Action.group : Action → String
  | .create g _ => g.id
  | .join g _ => g
  | .leave g _ => g
  | _ => ""

/-- What a committed membership action is answered with. -/
def Action.answer : Action → Response
  | .create g ids => .info (.ok (Group.toInfo g ids.length))
  | _ => .done (.ok ())

/-- A membership request, and the error it is answered with. -/
inductive Refused : Request → Response → Prop where
  | create {owner : String} {inp : Group.CreateInput} (err : Err) :
      Refused (.create owner inp) (.info (.error err))
  | join {g u : String} (err : Err) : Refused (.join g u) (.done (.error err))
  | quit {g u : String} (err : Err) : Refused (.quit g u) (.done (.error err))
  | kick {g op u : String} (err : Err) : Refused (.kick g op u) (.done (.error err))

/-- What `Pull` answers, in terms of its two reads. -/
inductive Pulled (H : History cfg users) (pid : ℕ) (inp : PullInput) (pageMax : Int) :
    Except Err PullResult → Prop where
  | invalid {err : Err} (h : inp.beginSeq < 1 ∨ inp.endSeq < inp.beginSeq) :
      Pulled H pid inp pageMax (.error err)
  | noRow {e : StoreErr} {err : Err} {H₁ : History cfg users}
      (h : SawAt H pid (.getUserConversationRow inp.userId inp.conversationId) (.error e) H₁) :
      Pulled H pid inp pageMax (.error err)
  | empty {uc : UserConversationRow} {H₁ : History cfg users}
      (h : SawAt H pid (.getUserConversationRow inp.userId inp.conversationId) (.ok uc) H₁)
      (hempty : (Conv.visibleRange uc.toUserConversation uc.convMaxSeq inp.beginSeq inp.endSeq).1 >
        (Conv.visibleRange uc.toUserConversation uc.convMaxSeq inp.beginSeq inp.endSeq).2) :
      Pulled H pid inp pageMax (.ok ⟨[], false⟩)
  | failed {uc : UserConversationRow} {b e : Int} {se : StoreErr} {err : Err}
      {H₁ H₂ : History cfg users}
      (h : SawAt H pid (.getUserConversationRow inp.userId inp.conversationId) (.ok uc) H₁)
      (hrange : (b, e) =
        Conv.visibleRange uc.toUserConversation uc.convMaxSeq inp.beginSeq inp.endSeq)
      (h' : SawAt H pid (.listMessages inp.conversationId b e
        (int32 (pullLimit inp.limit pageMax + 1))) (.error se) H₂) :
      Pulled H pid inp pageMax (.error err)
  | page {uc : UserConversationRow} {b e : Int} {rows : List Message} {H₁ H₂ : History cfg users}
      (h : SawAt H pid (.getUserConversationRow inp.userId inp.conversationId) (.ok uc) H₁)
      (hrange : (b, e) =
        Conv.visibleRange uc.toUserConversation uc.convMaxSeq inp.beginSeq inp.endSeq)
      (hbe : b ≤ e)
      (h' : SawAt H pid (.listMessages inp.conversationId b e
        (int32 (pullLimit inp.limit pageMax + 1))) (.ok rows) H₂)
      (hlater : H₁ <:+ H₂) :
      Pulled H pid inp pageMax (.ok (pullPage (pullLimit inp.limit pageMax) rows))

/-- **What the process serving a request may do next.** -/
inductive Does (H : History cfg users) (pid : ℕ) : Request → Event (system cfg users) → Db → Prop
    where
  | quiet {req : Request} {ev : Event (system cfg users)} {d : Db} (h : Quiet H ev d) :
      Does H pid req ev d
  /-- `Send` commits one message. -/
  | sendCommit {inp : SendInput} {m : Message} {d : Db} (hmarks : marks pid H = [])
      (hchange : Change cfg (Trace.db H) (.send inp.normalize m) d)
      (hid : Drew H pid m.serverMsgId) (hto : Found H pid inp) : Does H pid (.send inp) .commit d
  /-- It publishes the message it committed, ... -/
  | sendPublish {inp : SendInput} {m : Message} (hmarks : marks pid H = [.commit])
      (hm : Committed H pid (.send inp.normalize m)) :
      Does H pid (.send inp) (.ext (.publish (pushEvent m inp.senderConnId)) ()) (Trace.db H)
  /-- ... starts the offline push, ... -/
  | sendOffline {inp : SendInput} {m : Message}
      (hmarks : marks pid H = [.published (pushEvent m inp.senderConnId), .commit])
      (hm : Committed H pid (.send inp.normalize m)) :
      Does H pid (.send inp) (.ext (.spawnOfflinePush (pushEvent m inp.senderConnId)) ())
        (Trace.db H)
  /-- ... and acknowledges it. -/
  | sendAck {inp : SendInput} {m : Message}
      (hmarks : marks pid H = [.published (pushEvent m inp.senderConnId), .commit] ∨
        marks pid H = [.offline (pushEvent m inp.senderConnId),
          .published (pushEvent m inp.senderConnId), .commit])
      (hm : Committed H pid (.send inp.normalize m)) :
      Does H pid (.send inp) (.ret (.ack (.ok (ack m)))) (Trace.db H)
  /-- A retry may publish the stored message again, ... -/
  | sendRepublish {inp : SendInput} {m : Message} (hmarks : marks pid H = [])
      (hm : StoredFor (Trace.db H) inp m) :
      Does H pid (.send inp) (.ext (.publish (pushEvent m inp.senderConnId)) ()) (Trace.db H)
  /-- ... and acknowledges it. -/
  | sendAckAgain {inp : SendInput} {m : Message}
      (hmarks : marks pid H = [] ∨ marks pid H = [.published (pushEvent m inp.senderConnId)])
      (hm : StoredFor (Trace.db H) inp m) :
      Does H pid (.send inp) (.ret (.ack (.ok (ack m)))) (Trace.db H)
  | sendError {inp : SendInput} {err : Err} (hmarks : marks pid H = [])
      (hseq : FreshIds H → err.is errSeqAllocFailed = false) :
      Does H pid (.send inp) (.ret (.ack (.error err))) (Trace.db H)
  /-- A membership call commits its action, ... -/
  | memberCommit {req : Request} {a : Action} {d : Db} (hmarks : marks pid H = [])
      (hreq : Membership req a) (hchange : Change cfg (Trace.db H) a d) : Does H pid req .commit d
  /-- ... announces it, ... -/
  | memberChanged {req : Request} {a : Action} (hmarks : marks pid H = [.commit])
      (hreq : Membership req a) (ha : Committed H pid a) :
      Does H pid req (.ext (.groupChanged a.group) ()) (Trace.db H)
  /-- ... and returns. -/
  | memberOk {req : Request} {a : Action} (hmarks : marks pid H = [.changed a.group, .commit])
      (hreq : Membership req a) (ha : Committed H pid a) :
      Does H pid req (.ret a.answer) (Trace.db H)
  | memberError {req : Request} {v : Response} (hmarks : marks pid H = []) (hv : Refused req v) :
      Does H pid req (.ret v) (Trace.db H)
  /-- `MarkRead` advances the cursor, no further than the row it read allows, ... -/
  | readWrite {u conn c : String} {n target : Int} {row : UserConversationRow}
      {H₀ : History cfg users} (hmarks : marks pid H = [])
      (hrow : SawAt H pid (.getUserConversationRow u c) (.ok row) H₀)
      (htarget : target ≤ Conv.visibleMax row.toUserConversation row.convMaxSeq)
      (hchange : Change cfg (Trace.db H) (.read u c target)
        ((Trace.db H).advanceReadSeq u c target)) :
      Does H pid (.markRead u conn c n) (.stmt (.update (.advanceReadSeq u c target)) (.ok ()))
        ((Trace.db H).advanceReadSeq u c target)
  /-- ... broadcasts it, ... -/
  | readNotify {u conn c : String} {n target : Int} {row : UserConversationRow}
      {H₀ : History cfg users} (hmarks : marks pid H = [.wrote (.advanceReadSeq u c target)])
      (hrow : SawAt H pid (.getUserConversationRow u c) (.ok row) H₀)
      (htarget : target ≤ Conv.visibleMax row.toUserConversation row.convMaxSeq) :
      Does H pid (.markRead u conn c n) (.ext (.conversationRead ⟨u, conn, c, target⟩) ())
        (Trace.db H)
  /-- ... and returns it, or returns the cursor as it was. -/
  | readOk {u conn c : String} {n value : Int} {row : UserConversationRow} {H₀ : History cfg users}
      (hrow : SawAt H pid (.getUserConversationRow u c) (.ok row) H₀)
      (hvalue : value ≤ Conv.visibleMax row.toUserConversation row.convMaxSeq) :
      Does H pid (.markRead u conn c n) (.ret (.read (.ok value))) (Trace.db H)
  | readError {u conn c : String} {n : Int} {err : Err} (hmarks : marks pid H = []) :
      Does H pid (.markRead u conn c n) (.ret (.read (.error err))) (Trace.db H)
  | optWrite {u c : String} {opt : Option Int} {pinned : Option Bool}
      {r : Except StoreErr Unit} :
      Does H pid (.setOpt u c opt pinned) (.stmt (.update (.setUserConversationOpt u c opt pinned)) r)
        ((Trace.db H).setUserConversationOpt u c opt pinned)
  | optRet {u c : String} {opt : Option Int} {pinned : Option Bool} {r : Except Err Unit} :
      Does H pid (.setOpt u c opt pinned) (.ret (.done r)) (Trace.db H)
  | pullRet {inp : PullInput} {pageMax : Int} {r : Except Err PullResult}
      (h : Pulled H pid inp pageMax r) : Does H pid (.pull inp pageMax) (.ret (.page r)) (Trace.db H)

/-- **The specification**: an act of the outside, a fresh call, or what the call may do next. -/
def Allowed (H : History cfg users) (e : Entry (system cfg users)) : Prop :=
  match e.who with
  | none => e.event = .env ∧ Env (Trace.db H) e.db
  | some pid =>
    (∃ req, e.event = .start req ∧ e.db = Trace.db H ∧ ∀ e' ∈ H, e'.who ≠ some pid) ∨
      ∃ req, Started H pid req ∧ Does H pid req e.event e.db

/-- Acts of the outside disturb nothing that a lock protects. -/
theorem agree_env {ks : List Key} {d d' : Db} (h : Env d d') : Agree ks d d' := by
  have hrefl := Agree.refl ks d
  cases h with
  | users t _ => exact { hrefl with }
  | @role g u m role hm _ _ =>
    refine hrefl.setMembers rfl rfl (fun g' u' _ ↦ (Db.isMember_setRole g u role g' u').symm)
      (fun g' u' _ ↦ ?_) fun g' _ ↦ ?_
    · rw [Db.get_setRole, Option.map_map]
      refine Option.map_congr fun m' _ ↦ ?_
      simp only [Function.comp_apply]
      split <;> rfl
    · exact (Table.count_update (t := d.members) (f := fun m ↦ { m with role := role })
        (fun _ ↦ rfl) fun _ ↦ rfl).symm
  | status g s =>
    refine hrefl.setGroups rfl rfl (fun g' _ ↦ ?_) fun g' row hrow ↦ ?_
    · rw [Db.get_setStatus, Option.isSome_map]
    · rw [Db.get_setStatus, hrow, Option.map_some]
      by_cases hg : g' = g
      · exact ⟨s, by simp [hg]⟩
      · exact ⟨row.status, by simp [hg]⟩

/-- The specification of the system. -/
def spec (cfg : Config) (users : Table User String User.keys) : Spec (system cfg users) where
  iso := isolation
  Allowed := Allowed
  agree_env := agree_env

end Nexo
