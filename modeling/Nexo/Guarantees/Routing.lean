import Nexo.Ledger.Routing
import Nexo.Guarantees.Message

/-!
# Stored routing is consistent

What a stored message says of its destination agrees with its conversation, with the rows of both
parties and with every other message of the conversation; so the event that is published for it
reaches that pair or group.

`MessageRouted` states this of one message and one database, by the type of its session. A view row
keeps its peer from the moment it is created (`route_later`), so that two messages of a
conversation, of whatever age, have the same destination up to the direction (`sameRoute`).
-/

namespace Nexo

open Relational Message

variable {cfg : Config} {users : Table User String User.keys} {H H' : History cfg users}

theorem routed_of_valid (hv : (spec cfg users).Valid H) (hplain : PlainSenders H) :
    Routed (Trace.db H) := by
  induction hv with
  | nil =>
    intro o c t peer _ hr
    cases hr
  | @cons H e hv he ih =>
    have hs : H <:+ e :: H := List.suffix_cons e H
    have hrouted := ih (hplain.of_suffix hs)
    rcases Allowed.action he with heq | ⟨a, hchange, hsend⟩
    · rw [Trace.db_cons, heq]
      exact hrouted
    · refine hrouted.change hchange fun inp m ha ↦ ?_
      obtain ⟨p, inp₀, -, -, hstart, rfl, -⟩ := hsend inp m ha
      rw [SendInput.senderId_normalize]
      exact hplain p inp₀ (hstart.mono hs)

theorem route_later (hv : (spec cfg users).Valid H') (hs : H <:+ H') {o c : String}
    (hc : ∀ g, c ≠ Conv.group g) {r : Int × String}
    (h : ((Trace.db H).view o c).map (·.route) = some r) :
    ((Trace.db H').view o c).map (·.route) = some r :=
  preserved (R := fun d d' ↦ (d.view o c).map (·.route) = some r → (d'.view o c).map (·.route) = some r)
    (fun _ h ↦ h) (fun h h' hr ↦ h' (h hr)) (fun _ hchange ↦ hchange.route_stays hc) hv hs h

theorem users_later (hv : (spec cfg users).Valid H') (hs : H <:+ H') {u : String}
    (h : ((Trace.db H).users.get u).isSome) : ((Trace.db H').users.get u).isSome :=
  preserved (R := fun d d' ↦ (d.users.get u).isSome → (d'.users.get u).isSome)
    (fun _ h ↦ h) (fun h h' hu ↦ h' (h hu)) (fun _ hchange ↦ hchange.users_persist) hv hs h

/-- The owner has a row of the single chat that names the peer. -/
def Db.HasPeer (d : Db) (o c peer : String) : Prop :=
  ∃ uc, d.userConversations.get (o, c) = some uc ∧ uc.type = conversationSingle ∧ uc.peerUserId = peer

theorem hasPeer_iff {d : Db} {o c peer : String} :
    d.HasPeer o c peer ↔ (d.view o c).map (·.route) = some (conversationSingle, peer) := by
  rw [Option.map_eq_some_iff]
  refine exists_congr fun uc ↦ and_congr_right fun _ ↦ ?_
  rw [UserConversation.route, Prod.mk.injEq]

/-- **A message is routed consistently** in the tables. -/
inductive MessageRouted (d : Db) (m : Message) : Prop
  | single (hs : m.sessionType = conversationSingle) (hgroup : m.groupId = "")
      (huser : (d.users.get m.recvId).isSome) (hne : m.recvId ≠ m.senderId)
      (hconv : m.conversationId = Conv.single m.senderId m.recvId)
      (hsender : d.HasPeer m.senderId m.conversationId m.recvId)
      (hrecv : d.HasPeer m.recvId m.conversationId m.senderId)
  | group (hs : m.sessionType = conversationGroup) (hrecv : m.recvId = "")
      (hconv : m.conversationId = Conv.group m.groupId)

/-- The row of a party names the other one, if there is a row. -/
theorem Routed.hasPeer {d : Db} (h : Routed d) {o peer : String} (ho : ':' ∉ o.toList)
    (hpeer : ':' ∉ peer.toList) (hview : (d.view o (Conv.single o peer)).isSome) :
    d.HasPeer o (Conv.single o peer) peer := by
  obtain ⟨uc, huc⟩ := Option.isSome_iff_exists.1 hview
  have hroute : (d.view o (Conv.single o peer)).map (·.route) = some (uc.type, uc.peerUserId) := by
    rw [huc]
    rfl
  obtain ⟨htype, hconv, -, -⟩ := h o _ _ _ (Conv.single_ne_group o peer) hroute
  refine ⟨uc, huc, htype, ?_⟩
  rcases Conv.single_eq_single ho hpeer hconv with ⟨-, heq⟩ | ⟨heq, heq'⟩
  · exact heq.symm
  · exact heq.symm.trans heq'.symm

theorem messageRouted_of_valid (hv : (spec cfg users).Valid H) (hplain : PlainSenders H) {m : Message}
    (hm : m ∈ (Trace.db H).messages.rows) : MessageRouted (Trace.db H) m := by
  obtain ⟨p, inp, hstart, ⟨d, H₀, hs, hchange⟩, -, hto⟩ := exists_sent hv hm
  have hcolon := hplain p inp hstart
  have hrouted : Routed d := routed_of_valid (hv.of_suffix hs) (hplain.of_suffix hs)
  obtain ⟨htype, hsender, hrecv, hgroup, hconv, hadm⟩ := hchange.destination
  have hparty := hchange.isSome_party
  rw [SendInput.sessionType_normalize] at htype
  rw [SendInput.senderId_normalize] at hsender
  rw [SendInput.conversation_normalize] at hconv
  rcases hadm with ⟨hsingle, hne, hcolon'⟩ | ⟨hgroup', -⟩
  · rw [← hrecv, SendInput.senderId_normalize, ← hsender] at hne
    rw [← hrecv] at hcolon'
    rw [← hsender] at hcolon
    rw [hsingle] at hparty
    rw [SendInput.conversation_normalize, SendInput.senderId_normalize, ← hsender, ← hrecv] at hparty
    rw [SendInput.sessionType_normalize] at hsingle
    have hplace : inp.normalize = { inp with groupId := "" } := if_pos hsingle
    rw [hplace] at hgroup hrecv
    have hsingleId : m.conversationId = Conv.single m.senderId m.recvId := by
      rw [hconv, SendInput.conversation, if_pos hsingle, hsender, hrecv]
    obtain ⟨hsome, hsome'⟩ := hparty rfl
    rw [← hconv, hsingleId] at hsome hsome'
    have hnotGroup : ∀ g, m.conversationId ≠ Conv.group g := by
      rw [hsingleId]
      exact Conv.single_ne_group _ _
    -- the rows as the commit left them, and as they still are
    have hpeer : d.HasPeer m.senderId m.conversationId m.recvId := by
      rw [hsingleId]
      exact hrouted.hasPeer hcolon hcolon' hsome
    have hpeer' : d.HasPeer m.recvId m.conversationId m.senderId := by
      rw [hsingleId, Conv.single_comm]
      rw [Conv.single_comm] at hsome'
      exact hrouted.hasPeer hcolon' hcolon hsome'
    obtain ⟨u, H₁, hsaw⟩ := hto hsingle
    have huser : ((Trace.db H₁).users.get m.recvId).isSome := by
      rcases hsaw.result hv with heq | heq
      · rw [hrecv, one_eq_ok.1 heq.symm]
        rfl
      · cases heq
    exact .single (htype.trans hsingle) hgroup (users_later hv hsaw.suffix huser) hne hsingleId
      (hasPeer_iff.2 (route_later hv hs hnotGroup (hasPeer_iff.1 hpeer)))
      (hasPeer_iff.2 (route_later hv hs hnotGroup (hasPeer_iff.1 hpeer')))
  · rw [SendInput.sessionType_normalize] at hgroup'
    have hnot : ¬inp.sessionType = conversationSingle := by
      rw [hgroup']
      decide
    have hplace : inp.normalize = { inp with recvId := "" } := if_neg hnot
    rw [hplace] at hgroup hrecv
    refine .group (htype.trans hgroup') hrecv ?_
    rw [hconv, SendInput.conversation, if_neg hnot, hgroup]

/-- What is published is a stored message. -/
theorem exists_of_published (hv : (spec cfg users).Valid H) {pid : ℕ} {ev : PushEvent}
    (hev : .published ev ∈ marks pid H) :
    ∃ m ∈ (Trace.db H).messages.rows, ∃ conn, ev = pushEvent m conn := by
  have hsend : ∀ inp, Started H pid (.send inp) →
      ∃ m ∈ (Trace.db H).messages.rows, ∃ conn, ev = pushEvent m conn := by
    intro inp hstart
    obtain ⟨m, hm, heq⟩ := (sendRun hv hstart).of_published hv hev
    exact ⟨m, Table.mem_of_get hm, inp.senderConnId, heq⟩
  obtain ⟨⟨who, event, d⟩, he, hwho, hmark⟩ := mem_marks.1 hev
  obtain rfl : who = some pid := hwho
  obtain ⟨new, H₀, rfl⟩ := List.append_of_mem he
  have hs : ⟨some pid, event, d⟩ :: H₀ <:+ new ++ ⟨some pid, event, d⟩ :: H₀ := List.suffix_append _ _
  rcases (hv.of_suffix hs).head with ⟨req, hevent, -⟩ | ⟨req, hstart, hdoes⟩
  · obtain rfl : event = .start req := hevent
    cases hmark
  · replace hstart := hstart.mono ((List.suffix_cons _ _).trans hs)
    cases hdoes with
    | quiet hq =>
      rw [mark_of_quiet hq] at hmark
      cases hmark
    | sendPublish | sendRepublish => exact hsend _ hstart
    | @optWrite _ _ _ _ r => cases r <;> cases hmark
    | _ => cases hmark

/-- Two messages go to the same pair of users, or to the same group. -/
inductive SameRoute (m m' : Message) : Prop
  | single (hs : m.sessionType = conversationSingle) (hs' : m'.sessionType = conversationSingle)
      (hpair : [m.senderId, m.recvId].Perm [m'.senderId, m'.recvId])
  | group (hs : m.sessionType = conversationGroup) (hs' : m'.sessionType = conversationGroup)
      (hgroup : m.groupId = m'.groupId)

theorem sameRoute {d : Db} (hd : Routed d) {m m' : Message} (hm : MessageRouted d m)
    (hm' : MessageRouted d m') (hconv : m.conversationId = m'.conversationId) : SameRoute m m' := by
  cases hm with
  | single hs _ _ _ hid hsender _ =>
    have hnot : ∀ g, m.conversationId ≠ Conv.group g := by
      rw [hid]
      exact Conv.single_ne_group _ _
    cases hm' with
    | single hs' _ _ _ hid' _ _ =>
      refine .single hs hs' ?_
      obtain ⟨-, -, hcolon, hcolon'⟩ := hd _ _ _ _ hnot (hasPeer_iff.1 hsender)
      rw [hid, hid'] at hconv
      rcases Conv.single_eq_single hcolon hcolon' hconv with ⟨heq, heq'⟩ | ⟨heq, heq'⟩
      · rw [heq, heq']
      · rw [heq, heq']
        exact .swap _ _ _
    | group _ _ hid' => exact absurd (hconv.trans hid') (hnot _)
  | group hs _ hid =>
    cases hm' with
    | single _ _ _ _ hid' _ _ =>
      exact absurd (hid'.symm.trans (hconv.symm.trans hid)) (Conv.single_ne_group _ _ _)
    | group hs' _ hid' => exact .group hs hs' (Conv.group_inj.1 (hid.symm.trans (hconv.trans hid')))

/-- **Stored routing is consistent.** In every reachable world whose senders' ids are free of the
separator, every stored message is routed consistently, and messages of one conversation go the same
way. Every event that was published is about a stored message, and its recipients are the two
parties of every message of the conversation, or the roster of its group. -/
theorem routing_consistent {w : World (system cfg users)} (h : Reachable (system cfg users) w)
    (hplain : PlainSenders w.trace) :
    (∀ m ∈ w.db.messages.rows, MessageRouted w.db m) ∧
    (∀ m ∈ w.db.messages.rows, ∀ m' ∈ w.db.messages.rows, m.conversationId = m'.conversationId →
      SameRoute m m') ∧
    ∀ pid ev, .published ev ∈ marks pid w.trace →
      (∃ m ∈ w.db.messages.rows, ∃ conn, ev = pushEvent m conn) ∧
      ∀ m ∈ w.db.messages.rows, m.conversationId = ev.conversationId → ∀ roster,
        (m.sessionType = conversationSingle →
          (recipients roster ev).Perm [m.senderId, m.recvId]) ∧
        (m.sessionType = conversationGroup → recipients roster ev = roster m.groupId) := by
  have hv := valid_of_reachable h
  have hrouted : Routed w.db := routed_of_valid hv hplain
  have hmessages : ∀ m ∈ w.db.messages.rows, MessageRouted w.db m :=
    fun m hm ↦ messageRouted_of_valid hv hplain hm
  have hsame : ∀ m ∈ w.db.messages.rows, ∀ m' ∈ w.db.messages.rows,
      m.conversationId = m'.conversationId → SameRoute m m' :=
    fun m hm m' hm' hconv ↦ sameRoute hrouted (hmessages m hm) (hmessages m' hm') hconv
  refine ⟨hmessages, hsame, fun pid ev hev ↦ ?_⟩
  obtain ⟨m, hm, conn, rfl⟩ := exists_of_published hv hev
  refine ⟨⟨m, hm, conn, rfl⟩, fun m' hm' hconv roster ↦ ?_⟩
  have hroute := hsame m hm m' hm' hconv.symm
  cases hroute with
  | single hs hs' hpair =>
    rw [recipients, if_pos (show (pushEvent m conn).sessionType = _ from hs)]
    exact ⟨fun _ ↦ hpair, fun hg ↦ absurd (hs'.symm.trans hg) (by decide)⟩
  | group hs hs' hgroup =>
    rw [recipients, if_neg (by rw [show (pushEvent m conn).sessionType = _ from hs]; decide)]
    exact ⟨fun hg ↦ absurd (hs'.symm.trans hg) (by decide), fun _ ↦ congrArg roster hgroup⟩

namespace RoutingDemo

/-- Two users write to each other, each with a group id that has no business there. -/
def answering (sender recv client : String) : SendInput :=
  { Demo.message sender client with sessionType := conversationSingle, recvId := recv, groupId := "x" }

def chat : List (Request × ∀ e : Ext, e.Res) :=
  [(.send (answering "u___2" "u___1" "k"), answers 20 "m1"),
    (.send (answering "u___1" "u___2" "k"), answers 30 "m2")]

end RoutingDemo

open RoutingDemo in
theorem routing_consistent_demo : ∃ w : World (system Demo.config Demo.accounts),
    Reachable (system Demo.config Demo.accounts) w ∧ PlainSenders w.trace ∧
    w.db.messages.rows.map (fun m ↦ (m.senderId, m.recvId, m.groupId, m.conversationId)) =
      [("u___2", "u___1", "", "si_u___1:u___2"), ("u___1", "u___2", "", "si_u___1:u___2")] ∧
    ∀ m ∈ w.db.messages.rows, MessageRouted w.db m := by
  have hrun : (serial (system Demo.config Demo.accounts) chat 0 []).map (fun H : History _ _ ↦
      ((Trace.db H).messages.rows.map fun m ↦ (m.senderId, m.recvId, m.groupId, m.conversationId),
        (H.filterMap startedSender).all fun s ↦ ':' ∉ s.toList)) =
      some ([("u___2", "u___1", "", "si_u___1:u___2"), ("u___1", "u___2", "", "si_u___1:u___2")], true) := by
    decide +kernel
  obtain ⟨H, hH, hval⟩ := Option.map_eq_some_iff.1 hrun
  obtain ⟨hrows, hall⟩ := Prod.mk.inj hval
  have hreach := reachable_of_serial reachable_finished_zero hH
  have hplain : PlainSenders H := plainSenders_of_all hall
  exact ⟨_, hreach, hplain, hrows, (routing_consistent hreach hplain).1⟩

end Nexo
