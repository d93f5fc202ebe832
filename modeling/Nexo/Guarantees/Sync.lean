import Nexo.Client.Sync
import Nexo.Guarantees.Group

/-!
# The client against the server

End to end: a client that has read its bounds for a conversation, and then synchronises page by page
while everything else goes on, commits exactly the stored messages between its cursor and the bound
(`sync_complete`). Three facts about the server carry it: messages are gapless and immutable, a view
that shows something stays, and what it shows never shrinks.
-/

namespace Nexo

open Relational Message List Option

variable {cfg : Config} {users : Table User String User.keys}

/-! ### What a page holds -/

section Pages

variable {d : Db} {c : String}

/-- The message with this sequence number, as it leaves the server. -/
def Db.messageAt (d : Db) (c : String) (s : Int) : Dto.Message :=
  match d.messages.get (.seq c s) with
  | some m => Dto.messageFromStore m
  | none => ⟨"", "", c, s, 0, "", "", "", 0, "", 0⟩

theorem Db.messageAt_of_get {s : Int} {m : Message} (h : d.messages.get (.seq c s) = some m) :
    d.messageAt c s = Dto.messageFromStore m := by
  rw [Db.messageAt, h]

theorem Db.messageAt_key (d : Db) (c : String) (s : Int) :
    (d.messageAt c s).conversationId = c ∧ (d.messageAt c s).seq = s := by
  rcases h : d.messages.get (.seq c s) with - | m
  · rw [Db.messageAt, h]
    exact ⟨rfl, rfl⟩
  · rw [Db.messageAt_of_get h]
    exact seqKey_eq_of_get h

theorem mem_messagesIn {b e : Int} {m : Message} :
    m ∈ d.messagesIn c b e ↔ m ∈ d.messages.rows ∧ m.conversationId = c ∧ b ≤ m.seq ∧ m.seq ≤ e := by
  rw [Db.messagesIn, mem_insertionSort, mem_filter]
  simp [and_assoc]

/-- **A listing is the interval of its sequence numbers.** -/
theorem messagesIn_eq_filterMap (b e : Int) :
    d.messagesIn c b e = (Int.range b (e + 1)).filterMap fun s ↦ d.messages.get (.seq c s) := by
  have hsorted : (d.messagesIn c b e).Pairwise fun m m' ↦ m.seq ≤ m'.seq := by
    have : Std.Total fun m m' : Message ↦ m.seq ≤ m'.seq := ⟨fun _ _ ↦ le_total _ _⟩
    have : IsTrans Message fun m m' ↦ m.seq ≤ m'.seq := ⟨fun _ _ _ ↦ le_trans⟩
    exact pairwise_insertionSort _ _
  have hsorted' : ((Int.range b (e + 1)).filterMap fun s ↦ d.messages.get (.seq c s)).Pairwise
      fun m m' ↦ m.seq < m'.seq := by
    refine List.Pairwise.filterMap (R := (· < ·)) _ ?_ ?_
    · intro s s' hlt m hm m' hm'
      rwa [(seqKey_eq_of_get hm).2, (seqKey_eq_of_get hm').2]
    · exact Client.pairwise_range _ _
  have hmem : ∀ m, m ∈ d.messagesIn c b e ↔
      m ∈ (Int.range b (e + 1)).filterMap fun s ↦ d.messages.get (.seq c s) := by
    intro m
    rw [mem_messagesIn, mem_filterMap]
    constructor
    · rintro ⟨hm, rfl, hb, he⟩
      exact ⟨m.seq, Int.mem_range_iff.2 ⟨hb, by omega⟩, mem_rows_iff.1 hm⟩
    · rintro ⟨s, hs, hm⟩
      obtain ⟨rfl, rfl⟩ := seqKey_eq_of_get hm
      have hs := Int.mem_range_iff.1 hs
      exact ⟨mem_rows_iff.2 hm, rfl, hs.1, by omega⟩
  have hnodup : (d.messagesIn c b e).Nodup :=
    (perm_insertionSort _ _).nodup_iff.2
      ((d.messages.nodup_rows (by simp [Message.keys])).filter _)
  refine List.Perm.eq_of_pairwise ?_ hsorted (hsorted'.imp Int.le_of_lt)
    ((perm_ext_iff_of_nodup hnodup (hsorted'.imp fun h heq ↦ ?_)).2 hmem)
  · intro m m' hm hm' hle hle'
    rw [← hmem] at hm'
    obtain ⟨hm, hc, -⟩ := mem_messagesIn.1 hm
    obtain ⟨hm', hc', -⟩ := mem_messagesIn.1 hm'
    rw [mem_rows_iff, hc] at hm
    rw [mem_rows_iff, hc', ← Int.le_antisymm hle hle', hm] at hm'
    exact some.inj hm'
  · rw [heq] at h
    exact Int.lt_irrefl _ h

theorem map_messagesIn (hinv : Inv cfg d) {b e : Int} (hb : 1 ≤ b) (he : e ≤ d.maxSeq c) :
    (d.messagesIn c b e).map Dto.messageFromStore = (Int.range b (e + 1)).map (d.messageAt c) := by
  rw [messagesIn_eq_filterMap, map_filterMap, ← filterMap_eq_map]
  refine filterMap_congr fun s hs ↦ ?_
  obtain ⟨hbs, hse⟩ := Int.mem_range_iff.1 hs
  obtain ⟨m, hm⟩ := isSome_iff_exists.1 ((hinv.seqs c s).2 ⟨by omega, by omega⟩)
  rw [hm, map_some, Function.comp_apply, Db.messageAt_of_get hm]

end Pages

/-! ### What a user keeps seeing -/

section Stays

variable {H H' : History cfg users} {u c : String}

/-- Between the two moments the user has not become a member of the conversation's group. -/
def NoReturn (u c : String) (H H' : History cfg users) : Prop :=
  ∀ e H₁, e :: H₁ <:+ H' → H <:+ H₁ → ∀ g, c = Conv.group g → ¬ Enters g u e H₁

theorem NoReturn.of_suffix {H₁ : History cfg users} (h : NoReturn u c H H') (hs : H₁ <:+ H') :
    NoReturn u c H H₁ :=
  fun e H₂ he ↦ h e H₂ (he.trans hs)

/-- The user sees the conversation from `lo` at least up to `hi`. -/
def Db.Sees (d : Db) (u c : String) (lo hi : Int) : Prop :=
  ∃ uc, d.view u c = some uc ∧ uc.minSeq = lo ∧ hi ≤ Conv.visibleMax uc (d.maxSeq c)

/-- **What a user sees stays visible**, whoever sends, joins or leaves, as long as the user does not
come back as a new member. -/
theorem sees_later {lo hi : Int} (hv : (spec cfg users).Valid H') (hs : H <:+ H')
    (hno : NoReturn u c H H') (hpos : 0 < hi) (h : (Trace.db H).Sees u c lo hi) :
    (Trace.db H').Sees u c lo hi := by
  obtain ⟨new, rfl⟩ := hs
  induction new with
  | nil => exact h
  | cons e new ih =>
    rw [cons_append] at hv hno ⊢
    have hnew : H <:+ new ++ H := suffix_append _ _
    obtain ⟨uc, huc, hmin, hle⟩ := ih hv.tail (hno.of_suffix (suffix_cons _ _))
    obtain ⟨hstep, -⟩ := viewStep_of_valid hv u c
    have hview := (inv_of_valid hv.tail).views u c
    rw [huc] at hstep hview
    -- becoming active again would be an entry
    have hactive : e.db.Active u c → (Trace.db (new ++ H)).Active u c := by
      intro hact g hc
      rw [← Bool.not_eq_false]
      exact fun hout ↦ hno e (new ++ H) (suffix_refl _) hnew g hc ⟨hout, hact g hc⟩
    obtain ⟨uc', huc', hmin', hle'⟩ := hstep.stays hview (by omega) hactive
    exact ⟨uc', huc', hmin'.trans hmin, hle.trans hle'⟩

theorem sees_of_row {d : Db} {row : UserConversationRow}
    (h : d.userConversationRow u c = some row) :
    d.Sees u c row.minSeq (Conv.visibleMax row.toUserConversation row.convMaxSeq) := by
  obtain ⟨hview, hmax⟩ := view_of_row h
  exact ⟨_, hview, rfl, by rw [hmax]⟩

/-- Messages that were there are served the same way later. -/
theorem messageAt_later (hv : (spec cfg users).Valid H') (hs : H <:+ H') {s : Int} (h1 : 1 ≤ s)
    (hn : s ≤ (Trace.db H).maxSeq c) :
    (Trace.db H').messageAt c s = (Trace.db H).messageAt c s := by
  have hinv := inv_of_valid (hv.of_suffix hs)
  obtain ⟨m, hm⟩ := isSome_iff_exists.1 ((hinv.seqs c s).2 ⟨h1, hn⟩)
  rw [Db.messageAt_of_get hm, Db.messageAt_of_get (messages_persist hv hs hm)]

end Stays

/-! ### Pull -/

section Pull

variable {H H' : History cfg users} {pid : ℕ} {inp : PullInput} {pageMax : Int}

/-- The store failed none of the queries of the process. -/
def StoreAnswered (H : History cfg users) (pid : ℕ) : Prop :=
  ∀ q r H₁, SawAt H pid q r H₁ → r = q.exec (Trace.db H₁)

theorem one_le_pullLimit (limit pageMax : Int) : 1 ≤ pullLimit limit pageMax := by
  unfold pullLimit
  simp only
  split <;> omega

theorem pullLimit_le {limit : Int} (h : 0 < limit) (pageMax : Int) :
    pullLimit limit pageMax ≤ limit := by
  unfold pullLimit
  simp only
  split <;> omega

theorem int32_of_bounded {n : Int} (h0 : 0 ≤ n) (hn : n < 2 ^ 31) : int32 n = n := by
  unfold int32
  omega

theorem take_range (a b : Int) (n : ℕ) :
    (Int.range a b).take n = Int.range a (a + (min n (b - a).toNat : ℕ)) := by
  rw [Int.range, Int.range, ← List.map_take, List.take_range]
  congr 2
  omega

theorem visibleRange_of_sees {d : Db} {u c : String} {row : UserConversationRow} {lo hi b e : Int}
    (hrow : d.userConversationRow u c = some row) (hsees : d.Sees u c lo hi) (hlo : lo ≤ b)
    (hhi : e ≤ hi) :
    Conv.visibleRange row.toUserConversation row.convMaxSeq b e = (b, e) := by
  obtain ⟨hview, hmax⟩ := view_of_row hrow
  obtain ⟨uc, huc, hmin, hle⟩ := hsees
  obtain rfl := some.inj (hview.symm.trans huc)
  rw [hmax] at hle
  simp only [Conv.visibleRange, Prod.mk.injEq]
  omega

/-- The page cut from a listing is the beginning of the interval. -/
theorem pullPage_listMessages {d : Db} {c : String} {b e n : Int} (hinv : Inv cfg d) (hb : 1 ≤ b)
    (he : e ≤ d.maxSeq c) (hn : 0 ≤ n) :
    (pullPage n ((d.messagesIn c b e).take (n + 1).toNat)).messages =
      (Int.range b (b + (min n.toNat (e + 1 - b).toNat : ℕ))).map (d.messageAt c) := by
  rw [pullPage, take_take, Nat.min_eq_left (by omega), map_take, map_messagesIn hinv hb he,
    ← map_take, take_range]

/-- What a process saw, it saw after it had started. -/
theorem SawAt.after {q : Query} {r : Except StoreErr q.Val} {H₁ : History cfg users}
    (h : SawAt H' pid q r H₁) (hs : H <:+ H') (hfresh : ∀ e ∈ H, e.who ≠ some pid) : H <:+ H₁ := by
  obtain ⟨d, hq⟩ := h
  rcases suffix_or_suffix_of_suffix hs hq with h | h
  · rcases suffix_cons_iff.1 h with heq | h
    · rw [heq] at hfresh
      exact absurd rfl (hfresh _ mem_cons_self)
    · exact h
  · exact absurd rfl (hfresh _ (h.subset mem_cons_self))

/-- What a pull returns is a page or an error. -/
theorem page_of_returned (hv : (spec cfg users).Valid H)
    (hstart : Started H pid (.pull inp pageMax)) {v : Response} (hret : Returned H pid v) :
    ∃ r, v = .page r ∧ ∃ H₀, H₀ <:+ H ∧ Pulled H₀ pid inp pageMax r := by
  obtain ⟨ev, d, H₀, hs, hmark, hdoes⟩ := does_of_mark hv hstart hret
  cases hdoes with
  | quiet hq =>
    rw [mark_of_quiet hq] at hmark
    cases hmark
  | @pullRet _ _ r h =>
    obtain ⟨rfl⟩ := some.inj hmark
    exact ⟨r, rfl, H₀, (suffix_cons _ _).trans hs, h⟩
  | memberCommit _ hreq | memberChanged _ hreq | memberOk _ hreq => cases hreq
  | memberError _ hv => cases hv

/-- **What `Pull` answers.** Asked for messages that its user sees, it returns a page with the first
of them, at least one. -/
theorem pull_page {lo hi : Int} (hv : (spec cfg users).Valid H') (hs : H <:+ H')
    (hfresh : ∀ e ∈ H, e.who ≠ some pid) (hstart : Started H' pid (.pull inp pageMax))
    {r : Except Err PullResult} (hret : Returned H' pid (.page r))
    (hanswered : StoreAnswered H' pid) (hno : NoReturn inp.userId inp.conversationId H H')
    (hsees : (Trace.db H).Sees inp.userId inp.conversationId lo hi) (hlo : lo ≤ inp.beginSeq)
    (hbegin : 1 ≤ inp.beginSeq) (hend : inp.beginSeq ≤ inp.endSeq) (hhi : inp.endSeq ≤ hi)
    (hlimit : 0 < inp.limit) (hlimit' : inp.limit < 2 ^ 30) :
    ∃ page, r = .ok page ∧ ∃ k : ℕ, 0 < k ∧ inp.beginSeq + k ≤ inp.endSeq + 1 ∧
      page.messages = (Int.range inp.beginSeq (inp.beginSeq + k)).map
        ((Trace.db H).messageAt inp.conversationId) := by
  obtain ⟨_, ⟨rfl⟩, H₀, hs₀, hpulled⟩ := page_of_returned hv hstart hret
  -- whatever the process saw is the answer of tables no older than `H`
  have hsaw : ∀ {q r H₁}, SawAt H₀ pid q r H₁ →
      r = q.exec (Trace.db H₁) ∧ H <:+ H₁ ∧ H₁ <:+ H' := by
    intro q r H₁ hq
    have hq' := hq.mono hs₀
    exact ⟨hanswered q r H₁ hq', hq'.after hs hfresh, hq'.suffix⟩
  have hlater : ∀ {H₁}, H <:+ H₁ → H₁ <:+ H' →
      (Trace.db H₁).Sees inp.userId inp.conversationId lo hi := fun h h' ↦
    sees_later (hv.of_suffix h') h (hno.of_suffix h') (by omega) hsees
  have hone := one_le_pullLimit inp.limit pageMax
  have hsize := pullLimit_le hlimit pageMax
  have hn := int32_of_bounded (n := pullLimit inp.limit pageMax + 1) (by omega) (by omega)
  cases hpulled with
  | invalid h => omega
  | noRow hrow =>
    obtain ⟨heq, hs₁, hs₁'⟩ := hsaw hrow
    obtain ⟨uc, huc, -⟩ := hlater hs₁ hs₁'
    obtain ⟨row, hrow', -⟩ := exists_row_of_view (inv_of_valid (hv.of_suffix hs₁')) huc
    rw [Query.exec, hrow'] at heq
    cases heq
  | empty hrow hempty =>
    obtain ⟨heq, hs₁, hs₁'⟩ := hsaw hrow
    rw [visibleRange_of_sees (one_eq_ok.1 heq.symm) (hlater hs₁ hs₁') hlo hhi] at hempty
    exact absurd hempty (not_lt.2 hend)
  | failed hrow hrange hlist =>
    obtain ⟨heq, hs₁, hs₁'⟩ := hsaw hrow
    rw [visibleRange_of_sees (one_eq_ok.1 heq.symm) (hlater hs₁ hs₁') hlo hhi] at hrange
    obtain ⟨hlist, -⟩ := hsaw hlist
    rw [Query.exec, hn, if_neg (by omega)] at hlist
    cases hlist
  | page hrow hrange _ hlist _ =>
    obtain ⟨heq, hs₁, hs₁'⟩ := hsaw hrow
    rw [visibleRange_of_sees (one_eq_ok.1 heq.symm) (hlater hs₁ hs₁') hlo hhi] at hrange
    cases hrange
    obtain ⟨hlist, hs₂, hs₂'⟩ := hsaw hlist
    rw [Query.exec, hn, if_neg (by omega)] at hlist
    cases hlist
    have hv₂ := hv.of_suffix hs₂'
    have hmax : hi ≤ (Trace.db H).maxSeq inp.conversationId := by
      obtain ⟨uc, -, -, hle⟩ := hsees
      exact hle.trans (Conv.visibleMax_le _ _)
    have hmono := maxSeq_mono hv₂ hs₂ inp.conversationId
    refine ⟨_, rfl, min (pullLimit inp.limit pageMax).toNat (inp.endSeq + 1 - inp.beginSeq).toNat,
      by omega, by omega, ?_⟩
    rw [pullPage_listMessages (inv_of_valid hv₂) hbegin (by omega) (by omega)]
    refine map_congr_left fun s hs ↦ ?_
    obtain ⟨hb, he⟩ := Int.mem_range_iff.1 hs
    exact messageAt_later hv₂ hs₂ (by omega) (by omega)

end Pull

/-! ### The result -/

/-- What the server makes of a query: the user is the one the session belongs to. -/
def Client.PullQuery.input (q : Client.PullQuery) (u : String) : PullInput :=
  ⟨u, q.conversationId, q.beginSeq, q.endSeq, q.limit⟩

/-- **One request.** A new pull starts, runs among everything else that goes on, and returns. The
request does not fail: the store answers its queries. And meanwhile the user does not join again. -/
structure Answered (pageMax : Int) (inp : PullInput) (w : World (system cfg users))
    (r : Except Err PullResult) (w' : World (system cfg users)) : Prop where
  steps : Relation.ReflTransGen (Step (system cfg users)) w w'
  served : ∃ pid, (∀ e ∈ w.trace, e.who ≠ some pid) ∧ Started w'.trace pid (.pull inp pageMax) ∧
    Returned w'.trace pid (.page r) ∧ StoreAnswered w'.trace pid
  noReturn : NoReturn inp.userId inp.conversationId w.trace w'.trace

theorem reads_query {q : Query} {α : Type} {f : Except StoreErr q.Val → Call α}
    (hlock : Stmt.locks (.query q) = []) (hf : ∀ r, OnlyReads (f r)) : OnlyReads (query q >>= f) :=
  .stmt hlock (fun _ ↦ rfl) hf

theorem reads_pull (inp : PullInput) (pageMax : Int) : OnlyReads (pull inp pageMax) := by
  unfold pull
  split
  · exact .ret _
  refine reads_query rfl fun r ↦ ?_
  rcases r with e | row
  · cases e <;> exact .ret _
  change OnlyReads (if _ then _ else _)
  split
  · exact .ret _
  refine reads_query rfl fun r ↦ ?_
  rcases r with e | rows <;> exact .ret _

/-- **Every request can be answered**, at any time. -/
theorem exists_answered {w : World (system cfg users)} (h : Reachable (system cfg users) w)
    (pageMax : Int) (inp : PullInput) : ∃ r w', Answered pageMax inp w r w' := by
  obtain ⟨pid, hnone, hfresh⟩ := exists_fresh h
  have hstart := Step.start (Y := system cfg users) (.pull inp pageMax) hnone
  have hreads : OnlyReads ((system cfg users).prog (.pull inp pageMax)) :=
    (reads_pull inp pageMax).bind fun _ ↦ .ret _
  obtain ⟨w', new, v, hsteps, htrace, hnew⟩ := hreads.run (World.procs_set_self _ _ _)
  have hsteps := Relation.ReflTransGen.head hstart hsteps
  -- all that has happened is the call itself, and it has left the tables alone
  obtain ⟨own, hown, hquiet⟩ : ∃ own, w'.trace = own ++ w.trace ∧ ∀ e ∈ own, e.db = w.db := by
    refine ⟨_ :: (new ++ [_]), by simpa using htrace, ?_⟩
    intro e he
    simp only [mem_cons, mem_append, not_mem_nil, or_false] at he
    rcases he with rfl | he | rfl
    · rfl
    · exact (hnew e he).2.1
    · rfl
  have hdb : ∀ {H₁}, w.trace <:+ H₁ → H₁ <:+ w'.trace → Trace.db H₁ = w.db := by
    rintro _ ⟨l, rfl⟩ ⟨t, ht⟩
    cases l with
    | nil => rfl
    | cons e l =>
      rw [hown, ← append_assoc] at ht
      refine hquiet e ?_
      rw [← append_cancel_right ht]
      simp
  have hret : Returned w'.trace pid v := by
    rw [Returned, htrace, marks_cons_self]
    exact mem_cons_self
  have hstarted : Started w'.trace pid (.pull inp pageMax) := ⟨w.db, by simp [htrace]⟩
  have hv := valid_of_reachable (h.trans hsteps)
  obtain ⟨r, rfl, -⟩ := page_of_returned hv hstarted hret
  refine ⟨r, w', hsteps, ⟨pid, hfresh, hstarted, hret, ?_⟩, ?_⟩
  · intro q a H₁ hsaw
    have hs := hsaw.after (suffix_of_steps hsteps) hfresh
    rw [hdb hs hsaw.suffix]
    obtain ⟨d, hq⟩ := hsaw
    have hmem := hq.subset mem_cons_self
    rw [htrace] at hmem
    simp only [World.trace_set, World.trace_log, mem_cons, mem_append] at hmem
    rcases hmem with heq | hmem | heq | hmem
    · cases heq
    · obtain ⟨-, -, s, hs⟩ := hnew _ hmem
      cases hs
      rfl
    · cases heq
    · exact absurd rfl (hfresh _ hmem)
  · rintro e H₁ he hs g - ⟨hout, hin⟩
    rw [hdb hs ((suffix_cons _ _).trans he)] at hout
    have hin' := hdb (hs.trans (suffix_cons e _)) he
    rw [Trace.db_cons] at hin'
    rw [hin', hout] at hin
    cases hin

theorem NoReturn.refl (u c : String) (H : History cfg users) : NoReturn u c H H := by
  intro e H₁ he hH
  have hlen := he.length_le
  have hlen' := hH.length_le
  simp only [length_cons] at hlen
  omega

theorem NoReturn.trans {u c : String} {H H' H'' : History cfg users} (h : NoReturn u c H H')
    (h' : NoReturn u c H' H'') (hs : H' <:+ H'') : NoReturn u c H H'' := by
  intro e H₁ he hH
  rcases suffix_or_suffix_of_suffix hs he with hle | hle
  · rcases suffix_cons_iff.1 hle with heq | hle
    · exact h e H₁ (heq ▸ suffix_refl _) hH
    · exact h' e H₁ he hle
  · exact h e H₁ hle hH

theorem messagesIn_later {H H' : History cfg users} {c : String} {b e : Int}
    (hv : (spec cfg users).Valid H') (hs : H <:+ H') (hb : 1 ≤ b)
    (he : e ≤ (Trace.db H).maxSeq c) :
    (Trace.db H').messagesIn c b e = (Trace.db H).messagesIn c b e := by
  have hinv := inv_of_valid (hv.of_suffix hs)
  rw [messagesIn_eq_filterMap, messagesIn_eq_filterMap]
  refine filterMap_congr fun s hs' ↦ ?_
  obtain ⟨hbs, hse⟩ := Int.mem_range_iff.1 hs'
  obtain ⟨m, hm⟩ := isSome_iff_exists.1 ((hinv.seqs c s).2 ⟨by omega, by omega⟩)
  rw [hm, messages_persist hv hs hm]

/-- Where the client may find the server: later than `w`, and the user has not joined again. -/
structure Meanwhile (u c : String) (w w' : World (system cfg users)) : Prop where
  reachable : Reachable (system cfg users) w'
  suffix : w.trace <:+ w'.trace
  noReturn : NoReturn u c w.trace w'.trace

/-- **One round of the loop**: the server continues the cursor. -/
theorem round_served {w w' : World (system cfg users)} {u c : String} {row : UserConversationRow}
    (h : Reachable (system cfg users) w) (hrow : w.db.userConversationRow u c = some row)
    {pageMax : Int} {r : Except Err PullResult} {w'' : World (system cfg users)} {local_ : Int}
    (hw' : Meanwhile u c w w') (hmin : row.minSeq ≤ local_ + 1)
    (hlt : local_ < (maxSeqItem row).maxSeq)
    (hreq : Answered pageMax ((Client.roundQuery (maxSeqItem row) local_).input u) w' r w'') :
    Meanwhile u c w w'' ∧ ∃ page, r = .ok page ∧ ∃ k : ℕ, 0 < k ∧
      local_ + k ≤ (maxSeqItem row).maxSeq ∧
      page.messages = (Int.range (local_ + 1) (local_ + 1 + k)).map (w.db.messageAt c) := by
  obtain ⟨hsteps, ⟨pid, hfresh, hstart, hret, hanswered⟩, hno⟩ := hreq
  have hr'' := hw'.reachable.trans hsteps
  have hs := suffix_of_steps hsteps
  have hv'' := valid_of_reachable hr''
  obtain ⟨hview, hmax⟩ := view_of_row hrow
  have hconv : row.conversationId = c := (ownerKey_eq_of_get hview).2
  have hinv : Inv cfg w.db := inv_of_valid (valid_of_reachable h)
  have hone := ((hinv.views u c).ok _ hview).one_le_min
  have hbound : (maxSeqItem row).maxSeq ≤ w.db.maxSeq c := by
    rw [hmax]
    exact Conv.visibleMax_le _ _
  have hpos : 0 < (maxSeqItem row).maxSeq := by omega
  have hsees := sees_later (valid_of_reachable hw'.reachable) hw'.suffix hw'.noReturn hpos
    (sees_of_row hrow)
  rw [show (Client.roundQuery (maxSeqItem row) local_).input u =
    ⟨u, c, local_ + 1, (maxSeqItem row).maxSeq, 100⟩ by rw [← hconv]; rfl] at hno hstart
  obtain ⟨page, hpage, k, hk, hle, hmessages⟩ : ∃ page, r = .ok page ∧ ∃ k : ℕ, 0 < k ∧
      local_ + 1 + k ≤ (maxSeqItem row).maxSeq + 1 ∧ page.messages =
        (Int.range (local_ + 1) (local_ + 1 + k)).map ((Trace.db w'.trace).messageAt c) :=
    pull_page hv'' hs hfresh hstart hret hanswered hno hsees hmin (hone.trans hmin) hlt
      (Int.le_refl _) (show (0 : Int) < 100 by decide) (show (100 : Int) < 2 ^ 30 by decide)
  refine ⟨⟨hr'', hw'.suffix.trans hs, hw'.noReturn.trans hno hs⟩, page, hpage, k, hk, by omega, ?_⟩
  rw [hmessages]
  refine map_congr_left fun s hs ↦ ?_
  obtain ⟨hb, he⟩ := Int.mem_range_iff.1 hs
  exact messageAt_later (valid_of_reachable hw'.reachable) hw'.suffix (by omega)
    (le_trans (by omega) hbound)

/-- **The client against the server.** A user's bounds for a conversation are read in any reachable
world; from then on anything may happen between and during the requests, except that the user joins
again. Whatever the cursor and the page size, `syncRange` ends without throwing. It has committed
exactly the stored messages from the cursor, or from the first visible one, up to the bound, in
ascending order and each once, and it leaves the cursor at the bound. -/
theorem sync_complete {w : World (system cfg users)} (h : Reachable (system cfg users) w)
    {u c : String} {row : UserConversationRow} (hrow : w.db.userConversationRow u c = some row)
    (pageMax : Int)
    (api : World (system cfg users) → Client.PullQuery →
      Except Err PullResult × World (system cfg users))
    (hapi : ∀ w q, Reachable (system cfg users) w →
      Answered pageMax (q.input u) w (api w q).1 (api w q).2)
    (aborted : World (system cfg users) → Bool) (habort : ∀ w, aborted w = false) (cursor : Int) :
    let bounds := maxSeqItem row
    let first := max (min (max cursor (bounds.minSeq - 1)) bounds.maxSeq + 1) bounds.minSeq
    let out := Client.syncRange api aborted bounds cursor w
    out.result = .ok () ∧
      out.commits.flatMap (·.1) =
        (out.world.db.messagesIn c first bounds.maxSeq).map Dto.messageFromStore ∧
      ((out.commits.flatMap (·.1)).map (·.seq)).Pairwise (· < ·) ∧
      out.world.db.messagesIn c first bounds.maxSeq = w.db.messagesIn c first bounds.maxSeq ∧
      (out.commits.map (·.2)).getLast? = some bounds.maxSeq := by
  intro bounds first out
  have hinv : Inv cfg w.db := inv_of_valid (valid_of_reachable h)
  obtain ⟨hview, hmax⟩ := view_of_row hrow
  have hconv : bounds.conversationId = c := (ownerKey_eq_of_get hview).2
  have hok := (hinv.views u c).ok _ hview
  have hone : 1 ≤ bounds.minSeq := hok.one_le_min
  have hvis : bounds.minSeq - 1 ≤ bounds.maxSeq := by
    have hle := hok.min_le_read.trans hok.read_le
    rwa [hmax] at hle
  have hbound : bounds.maxSeq ≤ w.db.maxSeq c := by
    rw [hmax]
    exact Conv.visibleMax_le _ _
  have hfirst : first = min (max cursor (bounds.minSeq - 1)) bounds.maxSeq + 1 := by
    simp only [first]
    omega
  have hmsg : ∀ s, (w.db.messageAt c s).conversationId = bounds.conversationId ∧
      (w.db.messageAt c s).seq = s := by
    rw [hconv]
    exact w.db.messageAt_key c
  have hserve : ∀ w' local_, Meanwhile u c w w' → bounds.minSeq ≤ local_ + 1 →
      local_ < bounds.maxSeq → ∃ page w'', api w' (Client.roundQuery bounds local_) =
        (.ok page, w'') ∧ Meanwhile u c w w'' ∧ aborted w'' = false ∧ ∃ k : ℕ, 0 < k ∧
          local_ + k ≤ bounds.maxSeq ∧
          page.messages = (Int.range (local_ + 1) (local_ + 1 + k)).map (w.db.messageAt c) := by
    intro w' local_ hw' hmin hlt
    obtain ⟨hw'', page, hpage, hk⟩ :=
      round_served h hrow hw' hmin hlt (hapi w' (Client.roundQuery bounds local_) hw'.reachable)
    exact ⟨page, _, Prod.ext hpage rfl, hw'', habort _, hk⟩
  obtain ⟨hresult, hcommits, hlast, hworld⟩ :=
    Client.syncLoop_complete hmsg hserve (min (max cursor (bounds.minSeq - 1)) bounds.maxSeq)
      (by omega) (by omega) w ⟨h, List.suffix_refl _, NoReturn.refl u c _⟩
  have hpages : out.commits.flatMap (·.1) =
      (Int.range first (bounds.maxSeq + 1)).map (w.db.messageAt c) := by
    rw [hfirst]
    exact hcommits
  have hsame : out.world.db.messagesIn c first bounds.maxSeq =
      w.db.messagesIn c first bounds.maxSeq :=
    messagesIn_later (valid_of_reachable hworld.reachable) hworld.suffix (by omega) hbound
  refine ⟨hresult, ?_, ?_, hsame, ?_⟩
  · rw [hsame, hpages, map_messagesIn hinv (by omega) hbound]
  · have hseqs : (fun s ↦ (w.db.messageAt c s).seq) = id := funext fun s ↦ (hmsg s).2
    rw [hpages, List.map_map, Function.comp_def, hseqs, List.map_id]
    exact Client.pairwise_range _ _
  · rw [← hlast, List.getLastD_eq_getLast?]
    exact List.getLast?_cons

/-- A server that answers every request exists. -/
theorem exists_api (cfg : Config) (users : Table User String User.keys) (pageMax : Int)
    (u : String) :
    ∃ api : World (system cfg users) → Client.PullQuery →
      Except Err PullResult × World (system cfg users),
      ∀ w q, Reachable (system cfg users) w →
        Answered pageMax (q.input u) w (api w q).1 (api w q).2 := by
  have h : ∀ (w : World (system cfg users)) (q : Client.PullQuery),
      ∃ out : Except Err PullResult × World (system cfg users),
        Reachable (system cfg users) w → Answered pageMax (q.input u) w out.1 out.2 := by
    intro w q
    by_cases hw : Reachable (system cfg users) w
    · obtain ⟨r, w', h⟩ := exists_answered hw pageMax (q.input u)
      exact ⟨(r, w'), fun _ ↦ h⟩
    · exact ⟨(.ok ⟨[], false⟩, w), fun hw' ↦ absurd hw' hw⟩
  choose api hapi using h
  exact ⟨api, hapi⟩

/-- A server with pages of one message, and a user who sees three. -/
theorem sync_complete_demo : ∃ row api,
    Demo.world.db.userConversationRow "u___1" "sg_g" = some row ∧
    (∀ w q, Reachable (system Demo.config Demo.accounts) w →
      Answered 1 (q.input "u___1") w (api w q).1 (api w q).2) ∧
    let out := Client.syncRange api (fun _ ↦ false) (maxSeqItem row) 0 Demo.world
    out.result = .ok () ∧ (out.commits.flatMap (·.1)).map (·.seq) = [1, 2, 3] ∧
      (out.commits.map (·.2)).getLast? = some 3 := by
  have hbounds : (Demo.world.db.userConversationRow "u___1" "sg_g").map
      (fun row ↦ ((maxSeqItem row).minSeq, (maxSeqItem row).maxSeq)) = some (1, 3) := by
    decide +kernel
  obtain ⟨row, hrow, hbounds⟩ := Option.map_eq_some_iff.1 hbounds
  obtain ⟨hmin, hmax⟩ := Prod.mk.inj hbounds
  obtain ⟨api, hapi⟩ := exists_api Demo.config Demo.accounts 1 "u___1"
  obtain ⟨hresult, hcommits, -, hsame, hlast⟩ :=
    sync_complete Demo.reachable hrow 1 api hapi (fun _ ↦ false) (fun _ ↦ rfl) 0
  refine ⟨row, api, hrow, hapi, hresult, ?_, by rw [hlast, hmax]⟩
  rw [hcommits, hsame, hmin, hmax]
  decide +kernel

end Nexo
