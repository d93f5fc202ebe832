import Nexo.Guarantees.Message
import Nexo.Guarantees.Paging
import Nexo.Ledger.Routing
import Nexo.Service.Listing

/-!
# What holds of the reads of conversations

`List`, `Get` and `MaxSeqs` show the same conversation in the same way (`reads_agree`). Every item
is that of a row of the caller (`shown`), wherever it comes from, and its last message is the stored
one at the end of the visible range: there is one because the numbers of a conversation have no
gaps, and there is only one because a row belongs to one conversation.
-/

namespace Nexo

open Relational Conv Conversation List

/-! ### What a reader of the tables reads -/

section Reader

variable {κ : Type*} [LinearOrder κ]

/-- The reader of a state of the store, for a collation and a chunk size. -/
def Db.reader (d : Db) (sortKey : List UInt8 → κ) (chunk : ℕ) : Reader where
  getUserConversationRow o c := one (d.userConversationRow o c)
  listUserConversations := d.listUserConversations sortKey
  getMessages keys := .ok (d.getMessages chunk keys)

variable {d : Db} {sortKey : List UInt8 → κ} {chunk : ℕ} {u : String}

/-- The rows of an owner are those that are found by their ids. -/
theorem Db.mem_userConversationRows {r : UserConversationRow} (h : r ∈ d.userConversationRows u) :
    d.userConversationRow u r.conversationId = some r := by
  obtain ⟨uc, huc, hr⟩ := mem_filterMap.1 h
  obtain ⟨hmem, howner⟩ := mem_filter.1 huc
  obtain ⟨cv, hcv, rfl⟩ := Option.map_eq_some_iff.1 hr
  obtain rfl : uc.ownerId = u := of_decide_eq_true howner
  have hget : d.userConversations.get (uc.ownerId, uc.conversationId) = some uc :=
    Table.get_eq_some_iff.2 ⟨hmem, mem_singleton.2 rfl⟩
  rw [Db.userConversationRow, hget, Option.bind_some, hcv]
  rfl

theorem conversationId_of_row {c : String} {r : UserConversationRow}
    (h : d.userConversationRow u c = some r) : r.conversationId = c := by
  have hkey := Table.mem_keys_of_get (view_of_row h).1
  have hpair : (u, c) = (r.ownerId, r.conversationId) := mem_singleton.1 hkey
  exact (Prod.mk.inj hpair).2.symm

/-- A page holds rows of its owner. -/
theorem rows_of_listPage {cursor next : String} {limit pageMax : Int} {more : Bool}
    {rows : List UserConversationRow}
    (h : listPage (d.listUserConversations sortKey) u cursor limit pageMax = .ok (rows, next, more)) :
    ∀ r ∈ rows, d.userConversationRow u r.conversationId = some r := by
  intro r hr
  refine Db.mem_userConversationRows ?_
  have hlisted : ∀ {cur n}, r ∈ listRows sortKey (d.userConversationRows u) cur n →
      r ∈ d.userConversationRows u := by
    intro cur n hmem
    have hsorted := mem_of_mem_take hmem
    exact (mem_filter.1 (mem_mergeSort.1 hsorted)).1
  unfold listPage at h
  split at h
  · cases h
  · split at h
    · cases h
    · next listed heq =>
      rw [Db.listUserConversations, rowLister] at heq
      split at heq
      · cases heq
      obtain rfl : listRows sortKey (d.userConversationRows u) _ _ = listed := Except.ok.inj heq
      split at h
      · obtain ⟨rfl, -⟩ := Prod.mk.inj (Except.ok.inj h)
        exact hlisted hr
      · obtain ⟨rfl, -⟩ := Prod.mk.inj (Except.ok.inj h)
        exact hlisted (mem_of_mem_take hr)

end Reader

/-! ### Items -/

section Items

variable {cfg : Config} {d : Db} {u c : String}

/-- The last message of a row. -/
def Db.lastVisible (d : Db) (row : UserConversationRow) : Option Message :=
  (itemFromRow row).lastMessageKey.bind fun k ↦ d.messages.get (.seq k.1 k.2)

/-- **The item of a row**, however it is read. -/
def Db.shown (d : Db) (row : UserConversationRow) : FullItem :=
  { itemFromRow row with lastMessage := (d.lastVisible row).map Dto.messageFromStore }

/-- The last message is looked up by its key. -/
theorem mem_getMessages_iff {chunk : ℕ} {keys : List (String × Int)} {m : Message} :
    m ∈ d.getMessages chunk keys ↔
      ∃ k ∈ keys, d.messages.get (.seq k.1 k.2) = some m := by
  rw [Db.mem_getMessages]
  constructor
  · rintro ⟨hrow, hkey⟩
    exact ⟨_, hkey, mem_rows_iff.1 hrow⟩
  · rintro ⟨⟨c, s⟩, hkey, hget⟩
    obtain ⟨hrow, hk⟩ := Table.get_eq_some_iff.1 hget
    have hk' : c = m.conversationId ∧ s = m.seq := by simpa [Message.keys] using hk
    exact ⟨hrow, hk'.1 ▸ hk'.2 ▸ hkey⟩

theorem conversationId_of_lastVisible {row : UserConversationRow} {m : Message}
    (h : d.lastVisible row = some m) : m.conversationId = row.conversationId := by
  obtain ⟨k, hkey, hget⟩ := Option.bind_eq_some_iff.1 h
  have hk := (Table.get_eq_some_iff.1 hget).2
  have hconv : k.1 = m.conversationId ∧ k.2 = m.seq := by simpa [Message.keys] using hk
  unfold Item.lastMessageKey at hkey
  split at hkey
  · cases hkey
  · cases hkey
    exact hconv.1.symm

/-- One key leads to one message at most. -/
theorem head?_getMessages (d : Db) (chunk : ℕ) (k : String × Int) :
    (d.getMessages chunk [k]).head? = d.messages.get (.seq k.1 k.2) := by
  have hmem : ∀ m, m ∈ d.getMessages chunk [k] ↔ d.messages.get (.seq k.1 k.2) = some m := by
    simp [mem_getMessages_iff]
  rcases hlist : d.getMessages chunk [k] with - | ⟨m, ms⟩
  · refine (Option.eq_none_iff_forall_ne_some.2 fun m hm ↦ ?_).symm
    have := (hmem m).2 hm
    simp [hlist] at this
  · exact ((hmem m).1 (by simp [hlist])).symm

variable {κ : Type*} [LinearOrder κ] {sortKey : List UInt8 → κ} {chunk : ℕ}

/-- **`Get`** shows the row its key leads to. -/
theorem get_eq {key : GetKey} {row : UserConversationRow} (hkey : key.resolve u = .ok c)
    (hrow : d.userConversationRow u c = some row) :
    get (d.reader sortKey chunk) u key true = .ok (d.shown row) := by
  simp only [Conversation.get, hkey, Db.reader, hrow, one_some]
  rcases hlast : (itemFromRow row).lastMessageKey with - | k
  · simp [Db.shown, Db.lastVisible, hlast]
  · simp [Db.shown, Db.lastVisible, hlast, head?_getMessages]

/-- The batch of a page leads back to the last message of each of its rows. -/
theorem byConv_getMessages {rows : List UserConversationRow}
    (hrows : ∀ r ∈ rows, d.userConversationRow u r.conversationId = some r) {r : UserConversationRow}
    (hr : r ∈ rows) :
    byConv (d.getMessages chunk ((rows.map itemFromRow).filterMap Item.lastMessageKey))
      r.conversationId = d.lastVisible r := by
  have hmem : ∀ m, m ∈ d.getMessages chunk ((rows.map itemFromRow).filterMap Item.lastMessageKey) ↔
      ∃ r' ∈ rows, d.lastVisible r' = some m := by
    intro m
    rw [mem_getMessages_iff, filterMap_map]
    constructor
    · rintro ⟨k, hk, hget⟩
      obtain ⟨r', hr', hkey⟩ := mem_filterMap.1 hk
      exact ⟨r', hr', Option.bind_eq_some_iff.2 ⟨k, hkey, hget⟩⟩
    · rintro ⟨r', hr', hlast⟩
      obtain ⟨k, hkey, hget⟩ := Option.bind_eq_some_iff.1 hlast
      exact ⟨k, mem_filterMap.2 ⟨r', hr', hkey⟩, hget⟩
  unfold byConv
  rcases hfind : find? _ _ with - | m
  · refine (Option.eq_none_iff_forall_ne_some.2 fun m hm ↦ ?_).symm
    have hnot := find?_eq_none.1 hfind m (mem_reverse.2 ((hmem m).2 ⟨r, hr, hm⟩))
    exact hnot (decide_eq_true (conversationId_of_lastVisible hm))
  · have hfound := mem_reverse.1 (mem_of_find?_eq_some hfind)
    have hsame : m.conversationId = r.conversationId := by simpa using find?_some hfind
    obtain ⟨r', hr', hlast⟩ := (hmem m).1 hfound
    -- the row of a conversation is unique
    have hrow : some r' = some r := by
      rw [← hrows r' hr', ← hrows r hr, ← hsame, conversationId_of_lastVisible hlast]
    rw [← Option.some.inj hrow, hlast]

/-- **`List`** shows the rows of its page, and `MaxSeqs` has their bounds. -/
theorem list_eq {cursor : String} {limit pageMax : Int} {res : ListResult}
    (h : list (d.reader sortKey chunk) u cursor limit pageMax true = .ok res) :
    ∃ rows : List UserConversationRow,
      (∀ r ∈ rows, d.userConversationRow u r.conversationId = some r) ∧
      res.conversations = rows.map d.shown ∧
      Message.maxSeqs (d.reader sortKey chunk) u cursor limit pageMax =
        .ok ⟨rows.map Message.maxSeqItem, res.nextCursor, res.hasMore⟩ := by
  unfold list at h
  rcases hpage : listPage (d.reader sortKey chunk).listUserConversations u cursor limit pageMax with
    err | ⟨rows, next, more⟩
  · simp only [hpage] at h
    cases h
  simp only [hpage] at h
  have hrows := rows_of_listPage hpage
  refine ⟨rows, hrows, ?_⟩
  have hmax : Message.maxSeqs (d.reader sortKey chunk) u cursor limit pageMax =
      .ok ⟨rows.map Message.maxSeqItem, next, more⟩ := by
    simp only [Message.maxSeqs, hpage]
  by_cases hkeys : ((rows.map itemFromRow).filterMap Item.lastMessageKey).isEmpty = true
  · simp only [if_true, hkeys] at h
    cases h
    refine ⟨?_, hmax⟩
    rw [map_map]
    refine map_congr_left fun r hr ↦ ?_
    have hnone : (itemFromRow r).lastMessageKey = none := by
      have hnil := isEmpty_iff.1 hkeys
      exact filterMap_eq_nil_iff.1 hnil _ (mem_map.2 ⟨r, hr, rfl⟩)
    simp [Db.shown, Db.lastVisible, hnone]
  · simp only [if_true, hkeys] at h
    cases h
    refine ⟨?_, hmax⟩
    rw [map_map]
    refine map_congr_left fun r hr ↦ ?_
    have hlast : byConv (d.getMessages chunk ((rows.map itemFromRow).filterMap Item.lastMessageKey))
        (itemFromRow r).conversationId = d.lastVisible r := byConv_getMessages hrows hr
    rw [Function.comp_apply, hlast]
    rfl

/-- Without last messages there are none. -/
theorem lastMessage_of_list_false {st : Reader} {cursor : String} {limit pageMax : Int}
    {res : ListResult} (h : list st u cursor limit pageMax false = .ok res) {item : FullItem}
    (hitem : item ∈ res.conversations) : item.lastMessage = none := by
  unfold list at h
  split at h
  · cases h
  · cases h
    obtain ⟨i, -, rfl⟩ := mem_map.1 hitem
    rfl

/-- What `Get` shows is a row of the caller, with its last message or without any. -/
theorem get_cases {key : GetKey} {withLast : Bool} {item : FullItem}
    (h : get (d.reader sortKey chunk) u key withLast = .ok item) :
    item.lastMessage = none ∨ ∃ row, d.userConversationRow u row.conversationId = some row ∧
      item = d.shown row := by
  rcases hkey : key.resolve u with err | c
  · simp only [Conversation.get, hkey] at h
    cases h
  rcases hrow : d.userConversationRow u c with - | row
  · simp only [Conversation.get, hkey, Db.reader, hrow, one_none] at h
    cases h
  have hconv : d.userConversationRow u row.conversationId = some row := by
    rw [conversationId_of_row hrow, hrow]
  cases withLast with
  | true => exact .inr ⟨row, hconv, Except.ok.inj (h.symm.trans (get_eq hkey hrow))⟩
  | false =>
    left
    simp only [Conversation.get, hkey, Db.reader, hrow, one_some] at h
    split at h <;> cases h <;> rfl

/-! ### Visible ranges -/

variable (hinv : Inv cfg d) {row : UserConversationRow}
  (hrow : d.userConversationRow u row.conversationId = some row)

include hinv hrow

/-- **There is a last message exactly when something is visible**, and it is the last visible one.
-/
theorem lastVisible_spec :
    ((d.lastVisible row).isSome ↔
      ∃ s, Visible (d.maxSeq row.conversationId) (d.view u row.conversationId) s) ∧
    ∀ m, d.lastVisible row = some m →
      d.messages.get (.seq row.conversationId (d.visibleMax u row.conversationId)) = some m ∧
      Visible (d.maxSeq m.conversationId) (d.view u m.conversationId) m.seq := by
  obtain ⟨hview, hmax⟩ := view_of_row hrow
  have hvisible := visibleMax_of_row hrow
  have hok := (hinv.views u row.conversationId).ok _ hview
  rw [hmax] at hok
  have hle := Conv.visibleMax_le row.toUserConversation row.convMaxSeq
  have hmin := hok.one_le_min
  have hstored := hinv.seqs row.conversationId
    (Conv.visibleMax row.toUserConversation row.convMaxSeq)
  have hlast : d.lastVisible row =
      if Conv.visibleMax row.toUserConversation row.convMaxSeq < row.minSeq then none
      else d.messages.get
        (.seq row.conversationId (Conv.visibleMax row.toUserConversation row.convMaxSeq)) := by
    rw [Db.lastVisible, Item.lastMessageKey]
    change Option.bind (if Conv.visibleMax row.toUserConversation row.convMaxSeq < row.minSeq
      then none else some _) _ = _
    split <;> rfl
  by_cases hempty : Conv.visibleMax row.toUserConversation row.convMaxSeq < row.minSeq
  · rw [hlast, if_pos hempty]
    refine ⟨⟨fun h ↦ (by cases h), ?_⟩, fun m h ↦ by cases h⟩
    rintro ⟨s, uc, huc, hs, hs'⟩
    obtain rfl := Option.some.inj (hview.symm.trans huc)
    rw [hmax] at hs'
    omega
  · rw [hlast, if_neg hempty]
    refine ⟨iff_of_true (hstored.2 ⟨by omega, by omega⟩)
      ⟨_, _, hview, Int.not_lt.1 hempty, by rw [hmax]⟩, fun m hm ↦ ⟨by rw [hvisible, hm], ?_⟩⟩
    have hk := (Table.get_eq_some_iff.1 hm).2
    obtain ⟨hconv, hseq⟩ : row.conversationId = m.conversationId ∧
        Conv.visibleMax row.toUserConversation row.convMaxSeq = m.seq := by
      simpa [Message.keys] using hk
    rw [← hconv, ← hseq]
    exact ⟨_, hview, Int.not_lt.1 hempty, by rw [hmax]⟩

end Items

/-! ### The result -/

section Result

variable {cfg : Config} {users : Table User String User.keys}

theorem named_of_valid {H : History cfg users} (hv : (spec cfg users).Valid H) :
    Named (Trace.db H) :=
  holds_of_valid (P := Named) (fun _ _ _ h ↦ nomatch h) (fun _ hchange h ↦ h.change hchange) hv

/-- The names a row has lead back to its conversation. -/
theorem resolve_of_named {d : Db} {u c : String} {uc : UserConversation} (h : Named d)
    (hview : d.view u c = some uc) :
    GetKey.resolve { conversationId := c } u = .ok c ∧
    ((uc.type = conversationGroup ∧
        (uc.groupId ≠ "" → GetKey.resolve { groupId := uc.groupId } u = .ok c)) ∨
      (uc.type = conversationSingle ∧
        (uc.peerUserId ≠ "" → GetKey.resolve { peerUserId := uc.peerUserId } u = .ok c))) := by
  have hne : c ≠ "" := by
    rintro rfl
    rcases h u _ uc hview with ⟨-, hc⟩ | ⟨-, hc, -⟩
    · have hlen := congrArg String.length hc
      have hsg : "sg_".length = 3 := rfl
      simp only [Conv.group, String.length_append, String.length_empty] at hlen
      omega
    · have hlen := congrArg String.length hc
      have hsi : "si_".length = 3 := rfl
      simp only [Conv.single, String.length_append, String.length_empty] at hlen
      omega
  refine ⟨by simp [GetKey.resolve, bne_iff_ne.2 hne, hne], ?_⟩
  rcases h u c uc hview with ⟨htype, hc⟩ | ⟨htype, hc, hpeer⟩
  · refine .inl ⟨htype, fun hid ↦ ?_⟩
    rw [hc]
    simp [GetKey.resolve, hid]
  · refine .inr ⟨htype, fun hid ↦ ?_⟩
    rw [hc]
    simp [GetKey.resolve, hid, hpeer]

/-- **The reads of a conversation agree.** In every reachable world, for every caller, collation and
chunk size, and every page that `List` returns with last messages: each item is the one `Get`
returns for every key that leads to its conversation, and its id leads there, and so do its group or
its peer; it has a last message exactly when the caller's visible range is not empty, and then the
stored one at the caller's visible maximum; `MaxSeqs` returns the same page with the same bounds.
And no message that `List` or `Get` shows, in any way they are called, is outside the caller's
visible range. -/
theorem reads_agree {w : World (system cfg users)} (h : Reachable (system cfg users) w)
    {κ : Type*} [LinearOrder κ] (sortKey : List UInt8 → κ) (chunk : ℕ) (u : String) :
    let st := w.db.reader sortKey chunk
    (∀ cursor limit pageMax res, list st u cursor limit pageMax true = .ok res →
      (∀ item ∈ res.conversations,
        (∀ key, key.resolve u = .ok item.conversationId → get st u key true = .ok item) ∧
        get st u { conversationId := item.conversationId } true = .ok item ∧
        ((item.type = conversationGroup ∧
            (item.groupId ≠ "" → get st u { groupId := item.groupId } true = .ok item)) ∨
          (item.type = conversationSingle ∧
            (item.peerUserId ≠ "" → get st u { peerUserId := item.peerUserId } true = .ok item))) ∧
        (item.lastMessage.isSome ↔
          ∃ s, Visible (w.db.maxSeq item.conversationId) (w.db.view u item.conversationId) s) ∧
        (∀ msg, item.lastMessage = some msg → ∃ m, msg = Dto.messageFromStore m ∧
          w.db.messages.get (.seq item.conversationId (w.db.visibleMax u item.conversationId)) =
            some m)) ∧
      Message.maxSeqs st u cursor limit pageMax =
        .ok ⟨res.conversations.map fun i ↦ ⟨i.conversationId, i.maxSeq, i.minSeq, i.readSeq⟩,
          res.nextCursor, res.hasMore⟩) ∧
    (∀ item : FullItem,
      ((∃ cursor limit pageMax withLast res, list st u cursor limit pageMax withLast = .ok res ∧
          item ∈ res.conversations) ∨ ∃ key withLast, get st u key withLast = .ok item) →
      ∀ msg, item.lastMessage = some msg →
        Visible (w.db.maxSeq msg.conversationId) (w.db.view u msg.conversationId) msg.seq) := by
  intro st
  have hv := valid_of_reachable h
  have hinv : Inv cfg w.db := inv_of_valid hv
  have hnamed : Named w.db := named_of_valid hv
  -- what is shown of a row is visible
  have hvisible : ∀ {row msg}, w.db.userConversationRow u row.conversationId = some row →
      (w.db.shown row).lastMessage = some msg →
      Visible (w.db.maxSeq msg.conversationId) (w.db.view u msg.conversationId) msg.seq := by
    intro row msg hrow hmsg
    obtain ⟨m, hm, rfl⟩ := Option.map_eq_some_iff.1 hmsg
    exact ((lastVisible_spec hinv hrow).2 m hm).2
  refine ⟨fun cursor limit pageMax res hlist ↦ ?_, fun item hitem msg hmsg ↦ ?_⟩
  · obtain ⟨rows, hrows, hconv, hmax⟩ := list_eq hlist
    refine ⟨fun item hitem ↦ ?_, ?_⟩
    · rw [hconv] at hitem
      obtain ⟨row, hmem, rfl⟩ := List.mem_map.1 hitem
      have hrow := hrows row hmem
      have hget : ∀ key : GetKey, key.resolve u = .ok row.conversationId →
          get st u key true = .ok (w.db.shown row) := fun key hkey ↦ get_eq hkey hrow
      obtain ⟨hid, hnames⟩ := resolve_of_named hnamed (view_of_row hrow).1
      obtain ⟨hsome, hlast⟩ := lastVisible_spec hinv hrow
      refine ⟨hget, hget _ hid, ?_, ?_, fun msg hmsg ↦ ?_⟩
      · exact hnames.imp (And.imp_right fun hres hne ↦ hget _ (hres hne))
          (And.imp_right fun hres hne ↦ hget _ (hres hne))
      · have hshown : (w.db.shown row).lastMessage.isSome = (w.db.lastVisible row).isSome :=
          Option.isSome_map
        rw [hshown]
        exact hsome
      · obtain ⟨m, hm, rfl⟩ := Option.map_eq_some_iff.1 hmsg
        exact ⟨m, rfl, (hlast m hm).1⟩
    · rw [hmax, hconv, List.map_map]
      rfl
  · rcases hitem with ⟨cursor, limit, pageMax, withLast, res, hlist, hitem⟩ | ⟨key, withLast, hget⟩
    · cases withLast with
      | false =>
        rw [lastMessage_of_list_false hlist hitem] at hmsg
        cases hmsg
      | true =>
        obtain ⟨rows, hrows, hconv, -⟩ := list_eq hlist
        rw [hconv] at hitem
        obtain ⟨row, hmem, rfl⟩ := List.mem_map.1 hitem
        exact hvisible (hrows row hmem) hmsg
    · rcases get_cases hget with hnone | ⟨row, hrow, rfl⟩
      · rw [hnone] at hmsg
        cases hmsg
      · exact hvisible hrow hmsg

/-- In `Demo.world` the second user sees the group's last message in the list and in `Get`. -/
theorem reads_agree_demo :
    ∃ res item, list (Demo.world.db.reader byteKey 100) "u___2" "" 0 100 true = .ok res ∧
      item ∈ res.conversations ∧ item.conversationId = "sg_g" ∧
      get (Demo.world.db.reader byteKey 100) "u___2" { groupId := "g" } true = .ok item ∧
      ∃ msg, item.lastMessage = some msg ∧ msg.seq = 3 ∧
        Visible (Demo.world.db.maxSeq msg.conversationId)
          (Demo.world.db.view "u___2" msg.conversationId) msg.seq := by
  have hlisted : ((list (Demo.world.db.reader byteKey 100) "u___2" "" 0 100 true).toOption.map
      fun r ↦ r.conversations.map fun i ↦ (i.conversationId, i.lastMessage.map (·.seq))) =
        some [("sg_g", some 3)] := by decide +kernel
  obtain ⟨res, hres, hitems⟩ := Option.map_eq_some_iff.1 hlisted
  have hlist : list (Demo.world.db.reader byteKey 100) "u___2" "" 0 100 true = .ok res := by
    cases hcase : list (Demo.world.db.reader byteKey 100) "u___2" "" 0 100 true with
    | error e =>
      rw [hcase] at hres
      cases hres
    | ok r =>
      rw [hcase] at hres
      rw [Option.some.inj hres]
  obtain ⟨hpages, hvisible⟩ := reads_agree Demo.reachable byteKey 100 "u___2"
  obtain ⟨item, hmem, hpair⟩ := List.mem_map.1 (hitems ▸ List.mem_singleton_self _)
  obtain ⟨hid, hseq⟩ := Prod.mk.inj hpair
  obtain ⟨msg, hmsg, hmsgSeq⟩ := Option.map_eq_some_iff.1 hseq
  obtain ⟨hget, -⟩ := (hpages "" 0 100 res hlist).1 item hmem
  refine ⟨res, item, hlist, hmem, hid, hget { groupId := "g" } ?_, msg, hmsg, hmsgSeq, ?_⟩
  · rw [hid]
    rfl
  · exact hvisible item (.inl ⟨"", 0, 100, true, res, hlist, hmem⟩) msg hmsg

end Result

end Nexo
