import Nexo.Gateway.Deliver
import Nexo.Service.Offline

/-!
# Who gets a message

Two pipelines of filters, each equal to a condition on a single user. A user without connections
other than the exception gets no frame anyway, so the look at the registry before the visibility
query only saves the query (`mem_deliver`). The filters of an offline push each look at a user
alone, so their order does not matter, and the early exits happen where nobody is left
(`mem_offlineUsers`).
-/

namespace Nexo

open Gateway List

/-- The user's row covers the message of an event. -/
def CoversUser (d : Db) (ev : PushEvent) (u : String) : Prop :=
  ∃ uc, d.userConversations.get (u, ev.conversationId) = some uc ∧ Db.covers uc ev.message.seq

/-- The user has muted the conversation of an event. -/
def Muted (d : Db) (ev : PushEvent) (u : String) : Prop :=
  ∃ uc, d.userConversations.get (u, ev.conversationId) = some uc ∧ uc.recvMsgOpt ≠ 0

/-- Nobody is visible among nobody. -/
theorem visibleOwners_nil (d : Db) (c : String) (seq : Int) : d.visibleOwners c [] seq = [] := by
  simp [Db.visibleOwners]

/-! ### `Deliver` -/

section Deliver

variable {users : UserMap} {connId : ℕ → String} {d : Db} {roster : List String} {ev : PushEvent}

theorem mem_fanout {u except : String} {c : ℕ} :
    c ∈ fanout users connId u except ↔ c ∈ users.get u ∧ connId c ≠ except := by
  simp [fanout]

/-- The early exit for an empty list changes nothing: there would be no targets. -/
theorem deliver_eq (users : UserMap) (connId : ℕ → String) (d : Db) (roster : List String)
    (ev : PushEvent) :
    deliver users connId (.ok roster) (visibleTo d) ev =
      (d.visibleOwners ev.conversationId (users.onlineExcept connId roster ev.senderConnId)
        ev.message.seq).flatMap fun u ↦ fanout users connId u ev.senderConnId := by
  simp only [deliver, visibleTo]
  split
  next hnil =>
    rw [eq_nil_of_length_eq_zero hnil, visibleOwners_nil, flatMap_nil]
  next => rfl

theorem mem_deliver {c : ℕ} : c ∈ deliver users connId (.ok roster) (visibleTo d) ev ↔
    ∃ u ∈ roster, c ∈ users.get u ∧ CoversUser d ev u ∧ connId c ≠ ev.senderConnId := by
  rw [deliver_eq]
  simp only [mem_flatMap, Db.mem_visibleOwners, mem_fanout]
  constructor
  · rintro ⟨u, ⟨honline, hcovers⟩, hc, hne⟩
    exact ⟨u, mem_of_mem_filter honline, hc, hcovers, hne⟩
  · rintro ⟨u, hroster, hc, hcovers, hne⟩
    exact ⟨u, ⟨UserMap.mem_onlineExcept hroster hc hne, hcovers⟩, hc, hne⟩

theorem nodup_deliver (h : (users.close.1.map connId).Nodup) :
    (deliver users connId (.ok roster) (visibleTo d) ev).Nodup := by
  have hclose := h.of_map
  rw [deliver_eq]
  refine nodup_flatMap.2 ⟨fun u _ ↦ (UserMap.nodup_get hclose u).filter _, ?_⟩
  refine (d.nodup_visibleOwners _ _ _).imp fun {u v} hne c hu hv ↦ hne ?_
  exact UserMap.eq_of_mem_get hclose (mem_fanout.1 hu).1 (mem_fanout.1 hv).1

end Deliver

/-! ### `offlinePush` -/

namespace Message

variable {ε : Type} {reads : OfflineReads ε} {ev : PushEvent} {online : Option (String → List ℕ)}
  {roster : List String}

/-- No read fails. -/
def OfflineReads.Succeed (reads : OfflineReads ε) (roster : List String) (dm dv : Db)
    (online : Option (String → List ℕ)) : Prop :=
  reads.recipients = .ok roster ∧ reads.muted = .ok dm ∧ reads.visible = .ok dv ∧
    reads.online = online.map .ok

/-- The filters of `offlinePush`, one after the other and without the exits. -/
def offlineTargets (roster : List String) (dm dv : Db) (online : Option (String → List ℕ))
    (ev : PushEvent) : List String :=
  let targets := roster.filter fun id ↦ ¬ id = ev.senderId
  let targets := targets.filter fun id ↦ ¬ id ∈ dm.mutedOwners ev.conversationId targets
  (dv.visibleOwners ev.conversationId targets ev.message.seq).filter fun id ↦
    ¬ ((online.map fun o ↦ o id).getD []).length > 0

/-- The last filter, and the exit after it. -/
theorem pushOffline_users (h : reads.online = online.map .ok) (targets : List String) :
    ((pushOffline reads ev targets).map (·.1)).getD [] =
      targets.filter fun id ↦ ¬ ((online.map fun o ↦ o id).getD []).length > 0 := by
  have hexit (offline : List String) :
      ((if offline.length = 0 then none else some (offline, notification ev)).map (·.1)).getD [] =
        offline := by
    split
    next hnil => exact (eq_nil_of_length_eq_zero hnil).symm
    next => rfl
  cases online with
  | none =>
    simp only [pushOffline, h, Option.map_none, Option.bind_some]
    rw [hexit]
    simp
  | some o =>
    simp only [pushOffline, h, Option.map_some, Option.bind_some]
    rw [hexit]
    rfl

theorem offlineUsers_eq {dm dv : Db} (h : reads.Succeed roster dm dv online) :
    offlineUsers reads ev = offlineTargets roster dm dv online ev := by
  obtain ⟨hroster, hmuted, hvisible, honline⟩ := h
  simp only [offlineUsers, offlinePush, hroster, hmuted, hvisible, offlineTargets]
  -- each exit is taken where nobody is left
  split
  next hnil =>
    rw [eq_nil_of_length_eq_zero hnil, filter_nil, visibleOwners_nil]
    rfl
  split
  next hnil =>
    rw [eq_nil_of_length_eq_zero hnil, visibleOwners_nil]
    rfl
  split
  next hnil =>
    rw [eq_nil_of_length_eq_zero hnil]
    rfl
  next => exact pushOffline_users honline _

theorem mem_offlineUsers {dm dv : Db} (h : reads.Succeed roster dm dv online) {u : String} :
    u ∈ offlineUsers reads ev ↔ u ∈ roster ∧ u ≠ ev.senderId ∧ ¬ Muted dm ev u ∧ CoversUser dv ev u ∧
      ∀ o, online = some o → o u = [] := by
  have honline : ¬ ((online.map fun o ↦ o u).getD []).length > 0 ↔ ∀ o, online = some o → o u = [] := by
    cases online <;> simp
  rw [offlineUsers_eq h]
  simp only [offlineTargets, mem_filter, Db.mem_visibleOwners, Db.mem_mutedOwners,
    decide_eq_true_eq, honline]
  constructor
  · rintro ⟨⟨⟨⟨hroster, hne⟩, hmuted⟩, hcovers⟩, hoffline⟩
    exact ⟨hroster, hne, fun hm ↦ hmuted ⟨⟨hroster, hne⟩, hm⟩, hcovers, hoffline⟩
  · rintro ⟨hroster, hne, hmuted, hcovers, hoffline⟩
    exact ⟨⟨⟨⟨hroster, hne⟩, fun hm ↦ hmuted hm.2⟩, hcovers⟩, hoffline⟩

theorem nodup_offlineUsers {dm dv : Db} (h : reads.Succeed roster dm dv online) :
    (offlineUsers reads ev).Nodup := by
  rw [offlineUsers_eq h]
  exact (dv.nodup_visibleOwners _ _ _).filter _

/-- Some read fails. -/
def OfflineReads.Fail (reads : OfflineReads ε) : Prop :=
  (∃ e, reads.recipients = .error e) ∨ (∃ e, reads.muted = .error e) ∨
    (∃ e, reads.visible = .error e) ∨ ∃ e, reads.online = some (.error e)

/-- When a read fails, or is not made because nobody was left before it, nobody is pushed. -/
theorem offlinePush_eq_none (h : reads.Fail) : offlinePush reads ev = none := by
  unfold offlinePush
  split
  · rfl
  next roster hroster =>
    simp only
    split_ifs
    · rfl
    split
    · rfl
    next dm hmuted =>
      split_ifs
      · rfl
      split
      · rfl
      next dv hvisible =>
        split_ifs
        · rfl
        obtain ⟨e, honline⟩ : ∃ e, reads.online = some (.error e) := by
          rcases h with ⟨e, h⟩ | ⟨e, h⟩ | ⟨e, h⟩ | h
          · cases hroster.symm.trans h
          · cases hmuted.symm.trans h
          · cases hvisible.symm.trans h
          · exact h
        simp [pushOffline, honline]

end Message

/-! ### Both -/

/-- **The targets of a message.** -/
theorem delivery_targets (ev : PushEvent) (roster : List String) :
    (∀ (users : UserMap) (connId : ℕ → String) (d : Db), (users.close.1.map connId).Nodup →
      (deliver users connId (.ok roster) (visibleTo d) ev).Nodup ∧
      ∀ c, c ∈ deliver users connId (.ok roster) (visibleTo d) ev ↔
        ∃ u ∈ roster, c ∈ users.get u ∧ CoversUser d ev u ∧ connId c ≠ ev.senderConnId) ∧
    (∀ (ε : Type) (reads : Message.OfflineReads ε) (dm dv : Db) (online : Option (String → List ℕ)),
      reads.Succeed roster dm dv online →
      (Message.offlineUsers reads ev).Nodup ∧
      ∀ u, u ∈ Message.offlineUsers reads ev ↔ u ∈ roster ∧ u ≠ ev.senderId ∧ ¬ Muted dm ev u ∧
        CoversUser dv ev u ∧ ∀ o, online = some o → o u = []) ∧
    ∀ (ε : Type) (reads : Message.OfflineReads ε), reads.Fail → Message.offlinePush reads ev = none :=
  ⟨fun _ _ _ h ↦ ⟨nodup_deliver h, fun _ ↦ mem_deliver⟩,
    fun _ _ _ _ _ h ↦ ⟨Message.nodup_offlineUsers h, fun _ ↦ Message.mem_offlineUsers h⟩,
    fun _ _ h ↦ Message.offlinePush_eq_none h⟩

namespace TargetsDemo

def row (owner : String) : UserConversation :=
  { ownerId := owner, conversationId := "c", type := 1, updatedAt := 0 }

def db : Db := { Db.empty .empty with userConversations := ⟨[row "a", row "b"], by decide⟩ }

/-- A message of `a` to `b`, sent on connection `1`. -/
def event : PushEvent where
  conversationId := "c"
  sessionType := conversationSingle
  senderId := "a"
  senderConnId := "1"
  recvId := "b"
  groupId := ""
  message :=
    { serverMsgId := "m", clientMsgId := "1", conversationId := "c", seq := 1,
      sessionType := conversationSingle, senderId := "a", recvId := "b", groupId := "",
      contentType := 1, content := "", sendTime := 0 }

/-- Client 0 is of `b`, client 1 of `a`. -/
def users : UserMap :=
  (((UserMap.new ⟨0, 0, 0, 0⟩).adopt 0 ⟨"b", "", ""⟩ false).2.adopt 1 ⟨"a", "", ""⟩ false).2

def connId (c : ℕ) : String := if c = 0 then "2" else "1"

def reads (online : Except Unit (String → List ℕ)) : Message.OfflineReads Unit where
  recipients := .ok ["a", "b"]
  muted := .ok db
  visible := .ok db
  online := some online

end TargetsDemo

open TargetsDemo in
theorem delivery_targets_demo :
    0 ∈ deliver users connId (.ok ["a", "b"]) (visibleTo db) event ∧
      "b" ∈ Message.offlineUsers (reads (.ok fun _ ↦ [])) event ∧
      Message.offlinePush (reads (.error ())) event = none := by
  obtain ⟨hdeliver, hoffline, hfail⟩ := delivery_targets event ["a", "b"]
  have hcovers : CoversUser db event "b" := ⟨row "b", by decide, by decide⟩
  refine ⟨((hdeliver users connId db (by decide)).2 0).2 ⟨"b", by decide, by decide, hcovers, by decide⟩,
    ((hoffline Unit _ db db (some fun _ ↦ []) ⟨rfl, rfl, rfl, rfl⟩).2 "b").2
      ⟨by decide, by decide, ?_, hcovers, ?_⟩, hfail Unit _ (.inr (.inr (.inr ⟨(), rfl⟩)))⟩
  · rintro ⟨uc, huc, hopt⟩
    obtain rfl : row "b" = uc := Option.some.inj ((by decide : _ = _).symm.trans huc)
    exact hopt rfl
  · rintro o ho
    obtain rfl := Option.some.inj ho
    rfl

end Nexo
