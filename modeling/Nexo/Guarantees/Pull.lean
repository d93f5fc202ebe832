import Nexo.Guarantees.Sync

/-!
# What Pull returns

A pull reads its user's row and then, perhaps much later, the messages. It returns the beginning of
the **slice**: the messages it was asked for that the row shows, as they were stored when the row
was read. Messages are gapless and immutable, so what is committed between the two reads does not
matter.

Pulls that continue one another (`Continues`) go through the slice page by page.
-/

namespace Nexo

open Relational Message List Conv

variable {cfg : Config} {users : Table User String User.keys}

/-! ### Slices -/

section Slices

variable {d : Db} {inp : PullInput} {row : UserConversationRow}

/-- The sequence number is asked for, and within the row's visible range. -/
def InSlice (inp : PullInput) (row : UserConversationRow) (s : Int) : Prop :=
  inp.beginSeq ≤ s ∧ s ≤ inp.endSeq ∧ row.minSeq ≤ s ∧
    s ≤ Conv.visibleMax row.toUserConversation row.convMaxSeq

instance (inp : PullInput) (row : UserConversationRow) (s : Int) : Decidable (InSlice inp row s) :=
  inferInstanceAs (Decidable (_ ∧ _ ∧ _ ∧ _))

/-- The messages that a pull is asked for and the row shows, in ascending order. -/
def Db.slice (d : Db) (inp : PullInput) (row : UserConversationRow) : List Message :=
  (d.messagesIn inp.conversationId inp.beginSeq inp.endSeq).filter fun m ↦ InSlice inp row m.seq

theorem inSlice_iff {s : Int} : InSlice inp row s ↔
    (visibleRange row.toUserConversation row.convMaxSeq inp.beginSeq inp.endSeq).1 ≤ s ∧
      s ≤ (visibleRange row.toUserConversation row.convMaxSeq inp.beginSeq inp.endSeq).2 := by
  simp only [InSlice, visibleRange]
  omega

theorem filter_range {P : Int → Prop} [DecidablePred P] {a b a' b' : Int}
    (h : ∀ s, a' ≤ s ∧ s < b' ↔ a ≤ s ∧ s < b ∧ P s) :
    (Int.range a b).filter (fun s ↦ P s) = Int.range a' b' := by
  have hsorted := (Client.pairwise_range a b).filter (fun s ↦ decide (P s))
  have hsorted' := Client.pairwise_range a' b'
  refine List.Perm.eq_of_pairwise (fun s t _ _ hst hts ↦ (lt_asymm hst hts).elim) hsorted hsorted' ?_
  refine (perm_ext_iff_of_nodup (hsorted.imp ne_of_lt) (hsorted'.imp ne_of_lt)).2 fun s ↦ ?_
  rw [mem_filter, Int.mem_range_iff, Int.mem_range_iff, h, decide_eq_true_eq, and_assoc]

/-- **`VisibleRange` clips to the slice.** -/
theorem slice_eq_messagesIn : d.slice inp row = d.messagesIn inp.conversationId
    (visibleRange row.toUserConversation row.convMaxSeq inp.beginSeq inp.endSeq).1
    (visibleRange row.toUserConversation row.convMaxSeq inp.beginSeq inp.endSeq).2 := by
  have hrange : (Int.range inp.beginSeq (inp.endSeq + 1)).filter (fun s ↦ InSlice inp row s) =
      Int.range (visibleRange row.toUserConversation row.convMaxSeq inp.beginSeq inp.endSeq).1
        ((visibleRange row.toUserConversation row.convMaxSeq inp.beginSeq inp.endSeq).2 + 1) := by
    refine filter_range fun s ↦ ?_
    rw [Int.lt_add_one_iff, Int.lt_add_one_iff, ← inSlice_iff]
    exact ⟨fun h ↦ ⟨h.1, h.2.1, h⟩, fun h ↦ h.2.2⟩
  rw [Db.slice, messagesIn_eq_filterMap, messagesIn_eq_filterMap, ← hrange, filterMap_filter,
    filter_filterMap]
  refine filterMap_congr fun s _ ↦ ?_
  rcases hm : d.messages.get (.seq inp.conversationId s) with - | m
  · simp
  · obtain ⟨-, rfl⟩ := seqKey_eq_of_get hm
    by_cases hslice : InSlice inp row m.seq <;> simp [hslice]

/-- The slice is gapless. -/
theorem map_seq_slice (hinv : Inv cfg d)
    (hrow : d.userConversationRow inp.userId inp.conversationId = some row) :
    (d.slice inp row).map (·.seq) = Int.range
      (visibleRange row.toUserConversation row.convMaxSeq inp.beginSeq inp.endSeq).1
      ((visibleRange row.toUserConversation row.convMaxSeq inp.beginSeq inp.endSeq).2 + 1) := by
  obtain ⟨hview, hmax⟩ := view_of_row hrow
  have hone := ((hinv.views inp.userId inp.conversationId).ok _ hview).one_le_min
  have hle := visibleMax_le row.toUserConversation row.convMaxSeq
  have hseq : ∀ s, (d.messageAt inp.conversationId s).seq = s := fun s ↦ (d.messageAt_key _ s).2
  have hmap := map_messagesIn (c := inp.conversationId) hinv
    (b := (visibleRange row.toUserConversation row.convMaxSeq inp.beginSeq inp.endSeq).1)
    (e := (visibleRange row.toUserConversation row.convMaxSeq inp.beginSeq inp.endSeq).2)
    (by simp only [visibleRange]; omega) (by rw [hmax]; simp only [visibleRange]; omega)
  have hseqs := congrArg (map fun m : Dto.Message ↦ m.seq) hmap
  rw [map_map, map_map] at hseqs
  rw [slice_eq_messagesIn]
  refine hseqs.trans ?_
  rw [Function.comp_def, funext hseq, map_id']

end Slices

/-! ### One pull -/

/-- A pull that returned a page. -/
structure PullCall where
  pid : ℕ
  input : PullInput
  pageMax : Int
  page : PullResult

/-- The page size it worked with. -/
def PullCall.limit (c : PullCall) : Int := pullLimit c.input.limit c.pageMax

/-- The pull was accepted, with a page size whose successor is a 32-bit number. -/
structure PullCall.Done (c : PullCall) (H : History cfg users) : Prop where
  started : Started H c.pid (.pull c.input c.pageMax)
  returned : Returned H c.pid (.page (.ok c.page))
  limit : c.limit < 2 ^ 31 - 1

/-- The history at which a pull read its user's row, and the row. -/
abbrev Reading (cfg : Config) (users : Table User String User.keys) :=
  History cfg users × UserConversationRow

/-- The slice of a pull, as it was when its row was read. -/
def PullCall.slice (c : PullCall) (r : Reading cfg users) : List Dto.Message :=
  ((Trace.db r.1).slice c.input r.2).map Dto.messageFromStore

/-- **What a pull returned**, in terms of its first read. -/
structure PullCall.Exact (c : PullCall) (H : History cfg users) (r : Reading cfg users) : Prop where
  /-- the reading is the answer of its first query -/
  read : SawAt H c.pid (.getUserConversationRow c.input.userId c.input.conversationId) (.ok r.2) r.1
  row : (Trace.db r.1).userConversationRow c.input.userId c.input.conversationId = some r.2
  messages : c.page.messages = (c.slice r).take c.limit.toNat
  hasMore : c.page.hasMore = true ↔ c.limit < (c.slice r).length

section One

variable {H : History cfg users} {c : PullCall} {r : Reading cfg users}

theorem PullCall.Done.exact (hv : (spec cfg users).Valid H) (h : c.Done H) : ∃ r, c.Exact H r := by
  obtain ⟨_, ⟨rfl⟩, H₀, hs₀, hpulled⟩ := page_of_returned hv h.started h.returned
  have hlimit := h.limit
  have hone := one_le_pullLimit c.input.limit c.pageMax
  rw [PullCall.limit] at hlimit
  generalize hpage : c.page = page at hpulled
  cases hpulled with
  | @empty uc H₁ hread hempty =>
    have hread := hread.mono hs₀
    have hslice : (Trace.db H₁).slice c.input uc = [] := by
      refine filter_eq_nil_iff.2 fun m _ hin ↦ ?_
      have hin := inSlice_iff.1 (of_decide_eq_true hin)
      omega
    refine ⟨(H₁, uc), hread, hread.row hv, ?_, ?_⟩
    · simp [PullCall.slice, hslice, hpage]
    · simp only [hpage, PullCall.slice, hslice, PullCall.limit, map_nil, length_nil]
      simp
      omega
  | @page uc b e rows H₁ H₂ hread hrange hbe hlist hlater =>
    have hread := hread.mono hs₀
    have hrow := hread.row hv
    obtain ⟨hview, hmax⟩ := view_of_row hrow
    have hv₁ := hv.of_suffix hread.suffix
    have hone' := (((inv_of_valid hv₁).views _ _).ok _ hview).one_le_min
    have hle := visibleMax_le uc.toUserConversation uc.convMaxSeq
    obtain rfl : b = _ := congrArg Prod.fst hrange
    obtain rfl : e = _ := congrArg Prod.snd hrange
    have hrows : rows = ((Trace.db H₁).slice c.input uc).take (c.limit + 1).toNat := by
      rcases (hlist.mono hs₀).result hv with heq | heq
      · rw [int32_of_bounded (by omega) (by omega), Query.exec, if_neg (by omega)] at heq
        cases heq
        rw [slice_eq_messagesIn, messagesIn_later (hv.of_suffix (hlist.mono hs₀).suffix) hlater]
        · rfl
        · simp only [visibleRange]
          omega
        · rw [hmax]
          simp only [visibleRange]
          omega
      · cases heq
    refine ⟨(H₁, uc), hread, hrow, ?_, ?_⟩
    · rw [hpage, pullPage, hrows, take_take, PullCall.limit, Nat.min_eq_left (by omega), map_take]
      rfl
    · simp only [hpage, pullPage, hrows, PullCall.slice, length_map, length_take,
        decide_eq_true_eq, PullCall.limit]
      omega

/-- The page in numbers: `k` messages from `b` on. -/
structure PullCall.Cut (c : PullCall) (row : UserConversationRow) (b k : Int) : Prop where
  seqs : c.page.messages.map (·.seq) = Int.range b (b + k)
  nonneg : 0 ≤ k
  begin_le : c.input.beginSeq ≤ b
  within : ∀ s, b ≤ s → s < b + k → InSlice c.input row s
  least : ∀ s, InSlice c.input row s → b ≤ s
  more : c.page.hasMore = true → 0 < k ∧ b + k ≤ c.input.endSeq
  all : c.page.hasMore = false → ∀ s, InSlice c.input row s → s < b + k

theorem PullCall.Exact.seqs_slice (h : c.Exact H r) (hv : (spec cfg users).Valid H) :
    (c.slice r).map (·.seq) = Int.range
      (visibleRange r.2.toUserConversation r.2.convMaxSeq c.input.beginSeq c.input.endSeq).1
      ((visibleRange r.2.toUserConversation r.2.convMaxSeq c.input.beginSeq c.input.endSeq).2 + 1) := by
  rw [← map_seq_slice (inv_of_valid (hv.of_suffix h.read.suffix)) h.row, PullCall.slice, map_map]
  rfl

theorem PullCall.Exact.cut (h : c.Exact H r) (hv : (spec cfg users).Valid H) :
    ∃ b k, c.Cut r.2 b k := by
  have hslice := h.seqs_slice hv
  have hin : ∀ s, InSlice c.input r.2 s ↔ _ := fun s ↦ inSlice_iff
  have hbegin : c.input.beginSeq ≤
      (visibleRange r.2.toUserConversation r.2.convMaxSeq c.input.beginSeq c.input.endSeq).1 :=
    le_max_left _ _
  have hend : (visibleRange r.2.toUserConversation r.2.convMaxSeq c.input.beginSeq
      c.input.endSeq).2 ≤ c.input.endSeq := min_le_left _ _
  generalize (visibleRange r.2.toUserConversation r.2.convMaxSeq c.input.beginSeq
    c.input.endSeq).1 = b at hslice hin hbegin
  generalize (visibleRange r.2.toUserConversation r.2.convMaxSeq c.input.beginSeq
    c.input.endSeq).2 = e at hslice hin hend
  have hlength : (c.slice r).length = (e + 1 - b).toNat := by
    rw [← length_map (f := fun m : Dto.Message ↦ m.seq), hslice, Int.range, length_map, length_range]
  have hone : 1 ≤ c.limit := one_le_pullLimit _ _
  have hmore := h.hasMore
  rw [hlength] at hmore
  refine ⟨b, (min c.limit.toNat (e + 1 - b).toNat : ℕ), ?_, by omega, hbegin, ?_, ?_, ?_, ?_⟩
  · rw [h.messages, map_take, hslice, take_range]
  · intro s hb hs
    rw [hin]
    omega
  · exact fun s hs ↦ ((hin s).1 hs).1
  · intro hm
    have := hmore.1 hm
    omega
  · intro hm s hs
    have hlim : ¬c.limit < ((e + 1 - b).toNat : ℕ) := fun hlt ↦ by
      rw [hmore.2 hlt] at hm
      cases hm
    have := (hin s).1 hs
    omega

end One

/-! ### Pulls that continue one another -/

/-- The next pull asks for what comes after the last message of a page that has more. -/
structure Continues (c c' : PullCall) : Prop where
  hasMore : c.page.hasMore = true
  begin_eq : ∃ m, c.page.messages.getLast? = some m ∧ c'.input.beginSeq = m.seq + 1
  endSeq : c'.input.endSeq = c.input.endSeq
  userId : c'.input.userId = c.input.userId
  conversationId : c'.input.conversationId = c.input.conversationId

section Walks

variable {H : History cfg users} {c c' : PullCall} {cs : List PullCall}
  {read : PullCall → Reading cfg users}

/-- The sequence numbers that pulls returned, in order. -/
def returnedSeqs (cs : List PullCall) : List Int := (cs.flatMap (·.page.messages)).map (·.seq)

theorem returnedSeqs_cons (c : PullCall) (cs : List PullCall) :
    returnedSeqs (c :: cs) = c.page.messages.map (·.seq) ++ returnedSeqs cs := by
  rw [returnedSeqs, flatMap_cons, map_append]
  rfl

theorem PullCall.Cut.next {row : UserConversationRow} {b k : Int} (h : c.Cut row b k)
    (hnext : Continues c c') : c'.input.beginSeq = b + k := by
  obtain ⟨m, hm, hbegin⟩ := hnext.begin_eq
  obtain ⟨hk, -⟩ := h.more hnext.hasMore
  have hlast : (c.page.messages.map (·.seq)).getLast? = some m.seq := by
    rw [getLast?_map, hm]
    rfl
  have hsplit := Client.range_append (a := b) (b := b + k - 1) (c := b + k) (by omega) (by omega)
  rw [Client.range_eq_cons (by omega : b + k - 1 < b + k),
    Client.range_eq_nil (by omega : b + k ≤ b + k - 1 + 1)] at hsplit
  rw [h.seqs, hsplit, getLast?_concat, Option.some_inj] at hlast
  omega

/-- **Each message at most once, and in order**; and the pulls come to an end. -/
theorem walk_ascends (hv : (spec cfg users).Valid H) (hchain : (c :: cs).IsChain Continues)
    (hexact : ∀ c' ∈ c :: cs, c'.Exact H (read c')) :
    (returnedSeqs (c :: cs)).Pairwise (· < ·) ∧ (∀ s ∈ returnedSeqs (c :: cs), c.input.beginSeq ≤ s) ∧
      cs.length ≤ (c.input.endSeq - c.input.beginSeq).toNat := by
  induction cs generalizing c with
  | nil =>
    obtain ⟨b, k, hcut⟩ := (hexact c mem_cons_self).cut hv
    rw [returnedSeqs_cons, returnedSeqs, flatMap_nil, map_nil, append_nil, hcut.seqs]
    refine ⟨Client.pairwise_range _ _, fun s hs ↦ ?_, Nat.zero_le _⟩
    exact hcut.begin_le.trans (Int.mem_range_iff.1 hs).1
  | cons c' cs ih =>
    obtain ⟨b, k, hcut⟩ := (hexact c mem_cons_self).cut hv
    obtain ⟨hnext, hchain'⟩ := isChain_cons_cons.1 hchain
    obtain ⟨hpair, hfrom, hlen⟩ := ih hchain' fun c'' hc'' ↦ hexact c'' (mem_cons_of_mem _ hc'')
    have hbegin := hcut.next hnext
    have hle := hcut.begin_le
    obtain ⟨hk, hmore⟩ := hcut.more hnext.hasMore
    rw [returnedSeqs_cons, hcut.seqs]
    refine ⟨pairwise_append.2 ⟨Client.pairwise_range _ _, hpair, fun s hs t ht ↦ ?_⟩,
      fun s hs ↦ ?_, ?_⟩
    · have := (Int.mem_range_iff.1 hs).2
      have := hfrom t ht
      omega
    · rcases mem_append.1 hs with hs | hs
      · exact hle.trans (Int.mem_range_iff.1 hs).1
      · have := hfrom s hs
        omega
    · rw [hnext.endSeq] at hlen
      simp only [length_cons]
      omega

/-- The row shows this sequence number. -/
def Shows (row : UserConversationRow) (s : Int) : Prop :=
  row.minSeq ≤ s ∧ s ≤ Conv.visibleMax row.toUserConversation row.convMaxSeq

/-- **Nothing is skipped** that every pull could see. -/
theorem walk_complete (hv : (spec cfg users).Valid H) (hchain : (c :: cs).IsChain Continues)
    (hexact : ∀ c' ∈ c :: cs, c'.Exact H (read c'))
    (hlast : ∀ c' ∈ (c :: cs).getLast?, c'.page.hasMore = false) {s : Int}
    (hbegin : c.input.beginSeq ≤ s) (hend : s ≤ c.input.endSeq)
    (hshows : ∀ c' ∈ c :: cs, Shows (read c').2 s) : s ∈ returnedSeqs (c :: cs) := by
  induction cs generalizing c with
  | nil =>
    obtain ⟨b, k, hcut⟩ := (hexact c mem_cons_self).cut hv
    have hin : InSlice c.input (read c).2 s := ⟨hbegin, hend, hshows c mem_cons_self⟩
    rw [returnedSeqs_cons, hcut.seqs]
    refine mem_append_left _ (Int.mem_range_iff.2 ⟨hcut.least s hin, ?_⟩)
    exact hcut.all (hlast c rfl) s hin
  | cons c' cs ih =>
    obtain ⟨b, k, hcut⟩ := (hexact c mem_cons_self).cut hv
    obtain ⟨hnext, hchain'⟩ := isChain_cons_cons.1 hchain
    have hin : InSlice c.input (read c).2 s := ⟨hbegin, hend, hshows c mem_cons_self⟩
    rw [returnedSeqs_cons, hcut.seqs]
    by_cases hs : s < b + k
    · exact mem_append_left _ (Int.mem_range_iff.2 ⟨hcut.least s hin, hs⟩)
    · refine mem_append_right _ (ih hchain' (fun c'' hc'' ↦ hexact c'' (mem_cons_of_mem _ hc''))
        (fun c'' hc'' ↦ hlast c'' (by rwa [getLast?_cons_cons])) ?_ (hnext.endSeq ▸ hend)
        fun c'' hc'' ↦ hshows c'' (mem_cons_of_mem _ hc''))
      rw [hcut.next hnext]
      omega

theorem same_of_chain (hchain : (c :: cs).IsChain Continues) : ∀ c' ∈ cs,
    c'.input.userId = c.input.userId ∧ c'.input.conversationId = c.input.conversationId := by
  induction cs generalizing c with
  | nil => nofun
  | cons d cs ih =>
    obtain ⟨hnext, hchain'⟩ := isChain_cons_cons.1 hchain
    refine forall_mem_cons.2 ⟨⟨hnext.userId, hnext.conversationId⟩, fun c' hc' ↦ ?_⟩
    obtain ⟨huser, hconv⟩ := ih hchain' c' hc'
    exact ⟨huser.trans hnext.userId, hconv.trans hnext.conversationId⟩

/-- What one reading shows, a later one does, unless the user has joined again. -/
theorem shows_later {r r' : Reading cfg users} (hv : (spec cfg users).Valid H) (h : c.Exact H r)
    (h' : c'.Exact H r') (huser : c'.input.userId = c.input.userId)
    (hconv : c'.input.conversationId = c.input.conversationId) (hs : r.1 <:+ r'.1)
    (hno : NoReturn c.input.userId c.input.conversationId r.1 r'.1) {s : Int} (hshows : Shows r.2 s) :
    Shows r'.2 s := by
  obtain ⟨hmin, hmax⟩ := hshows
  have hone := (((inv_of_valid (hv.of_suffix h.read.suffix)).views _ _).ok _
    (view_of_row h.row).1).one_le_min
  obtain ⟨uc, huc, hmin', hmax'⟩ := sees_later (hv.of_suffix h'.read.suffix) hs hno (by omega)
    (sees_of_row h.row)
  have hrow := h'.row
  rw [huser, hconv] at hrow
  obtain ⟨hview, hconvMax⟩ := view_of_row hrow
  obtain rfl := Option.some.inj (hview.symm.trans huc)
  rw [hconvMax] at hmax'
  exact ⟨hmin'.trans_le hmin, hmax.trans hmax'⟩

/-- A message that a pull returns was committed in the latest stint of its user, up to the reading.
-/
theorem PullCall.Exact.inLatestStint {r : Reading cfg users} (hv : (spec cfg users).Valid H)
    (h : c.Exact H r) {g : String} (hconv : c.input.conversationId = group g) {m : Dto.Message}
    (hm : m ∈ c.page.messages) : InLatestStint r.1 g c.input.userId m.seq := by
  rw [h.messages] at hm
  obtain ⟨row, hrow, rfl⟩ := mem_map.1 (mem_of_mem_take hm)
  obtain ⟨hmem, hin⟩ := mem_filter.1 hrow
  obtain ⟨hstored, hconv', -⟩ := mem_messagesIn.1 hmem
  obtain ⟨-, -, hshows⟩ := of_decide_eq_true hin
  obtain ⟨hview, hmax⟩ := view_of_row h.row
  have hkey := mem_rows_iff.1 hstored
  rw [hconv', hconv] at hkey
  rw [hconv] at hview hmax
  refine (visible_iff_inLatestStint (hv.of_suffix h.read.suffix) ?_).1 ⟨_, hview, ?_⟩
  · exact Option.isSome_iff_exists.2 ⟨row, hkey⟩
  · rw [hmax]
    exact hshows

end Walks

/-! ### The result -/

instance : Nonempty (Reading cfg users) :=
  ⟨[], { ownerId := "", conversationId := "", type := 0, updatedAt := 0, convMaxSeq := 0 }⟩

/-- **`Pull` returns exactly the visible slice.** In every reachable world each accepted pull,
whatever was committed between its two reads, has returned the first messages of its slice as of the
first read, as many as its page size allows, in ascending order without a gap; it reports more if
and only if the slice has more; and in a group all it returned was committed in the latest stint of
its user. Pulls that continue one another return no message twice and come to an end, and at their
end they have returned every message that was asked for and visible to all of them: among these,
everything visible to the first one, unless the user has joined again since. -/
theorem pull_exact {w : World (system cfg users)} (h : Reachable (system cfg users) w) :
    ∃ read : PullCall → Reading cfg users,
      (∀ c : PullCall, c.Done w.trace → c.Exact w.trace (read c) ∧
        (∃ b, c.page.messages.map (·.seq) = Int.range b (b + c.page.messages.length)) ∧
        ∀ g, c.input.conversationId = Conv.group g → ∀ m ∈ c.page.messages,
          InLatestStint (read c).1 g c.input.userId m.seq) ∧
      ∀ c cs, (c :: cs).IsChain Continues → (∀ c' ∈ c :: cs, c'.Done w.trace) →
        (returnedSeqs (c :: cs)).Pairwise (· < ·) ∧
        cs.length ≤ (c.input.endSeq - c.input.beginSeq).toNat ∧
        ((∀ c' ∈ (c :: cs).getLast?, c'.page.hasMore = false) →
          ∀ s, c.input.beginSeq ≤ s → s ≤ c.input.endSeq →
            ((∀ c' ∈ c :: cs, Shows (read c').2 s) → s ∈ returnedSeqs (c :: cs)) ∧
            (Shows (read c).2 s → (∀ c' ∈ cs, (read c).1 <:+ (read c').1 ∧
              NoReturn c.input.userId c.input.conversationId (read c).1 (read c').1) →
              s ∈ returnedSeqs (c :: cs))) := by
  have hv := valid_of_reachable h
  have hread : ∀ c : PullCall, ∃ r : Reading cfg users, c.Done w.trace → c.Exact w.trace r := by
    intro c
    by_cases hc : c.Done w.trace
    · obtain ⟨r, hr⟩ := hc.exact hv
      exact ⟨r, fun _ ↦ hr⟩
    · exact ⟨Classical.arbitrary _, fun hc' ↦ absurd hc' hc⟩
  choose read hread using hread
  refine ⟨read, fun c hc ↦ ⟨hread c hc, ?_, ?_⟩, fun c cs hchain hdone ↦ ?_⟩
  · obtain ⟨b, k, hcut⟩ := (hread c hc).cut hv
    have hlength := congrArg List.length hcut.seqs
    rw [List.length_map, Int.range, List.length_map, List.length_range] at hlength
    have := hcut.nonneg
    refine ⟨b, hcut.seqs.trans ?_⟩
    congr 1
    omega
  · exact fun g hconv m hm ↦ (hread c hc).inLatestStint hv hconv hm
  · have hexact : ∀ c' ∈ c :: cs, c'.Exact w.trace (read c') := fun c' hc' ↦ hread c' (hdone c' hc')
    obtain ⟨hpair, -, hlen⟩ := walk_ascends hv hchain hexact
    refine ⟨hpair, hlen, fun hlast s hbegin hend ↦ ?_⟩
    have hall := walk_complete hv hchain hexact hlast hbegin hend
    refine ⟨hall, fun hshows hlater ↦ hall fun c' hc' ↦ ?_⟩
    rcases List.mem_cons.1 hc' with rfl | hmem
    · exact hshows
    · obtain ⟨hs, hno⟩ := hlater c' hmem
      obtain ⟨huser, hconv⟩ := same_of_chain hchain c' hmem
      exact shows_later hv (hexact c List.mem_cons_self) (hexact c' hc') huser hconv hs hno hshows

/-! ### An example

After the example of the services its first user asks for the group's messages up to number 9, of
which there are three, one at a time. -/

namespace PullDemo

/-- A pull of one message, from `b` on. -/
def input (b : Int) : PullInput := ⟨"u___1", "sg_g", b, 9, 1⟩

/-- Three pulls after the calls of `Demo`, which continue one another. -/
def calls : List (Request × ∀ e : Ext, e.Res) :=
  Demo.calls ++ [1, 2, 3].map fun b ↦ (.pull (input b) 5, answers 80 "")

def trace : History Demo.config Demo.accounts :=
  (serial (system Demo.config Demo.accounts) calls 0 []).getD []

/-- The page that a process returned. -/
def pageOf (pid : ℕ) : Entry (system Demo.config Demo.accounts) → Option PullResult
  | ⟨some p, .ret (.page (.ok page)), _⟩ => if p = pid then some page else none
  | _ => none

/-- One of the pulls, with the page that it returned. -/
def call (i : ℕ) : PullCall where
  pid := 9 + i
  input := input (i + 1)
  pageMax := 5
  page := (trace.findSome? (pageOf (9 + i))).getD ⟨[], false⟩

theorem done : ∀ i < 3, (call i).Done trace := by
  have hrun : ∀ i < 3, Started trace (9 + i) (.pull (input (i + 1)) 5) ∧
      (trace.findSome? (pageOf (9 + i))).isSome := by
    decide +kernel
  intro i hi
  obtain ⟨hstart, hpage⟩ := hrun i hi
  obtain ⟨page, hpage⟩ := Option.isSome_iff_exists.1 hpage
  obtain ⟨⟨who, ev, d⟩, he, hpageOf⟩ := exists_of_findSome?_eq_some hpage
  have hret : (call i).page = page := by rw [call, hpage, Option.getD_some]
  refine ⟨hstart, mem_marks.2 ⟨_, he, ?_⟩, show pullLimit 1 5 < 2 ^ 31 - 1 by decide⟩
  unfold pageOf at hpageOf
  split at hpageOf
  next heq =>
    cases heq
    split_ifs at hpageOf with hpid
    exact ⟨congrArg some hpid, by rw [hret, ← Option.some.inj hpageOf]; rfl⟩
  · cases hpageOf

theorem continues : ∀ i < 2, Continues (call i) (call (i + 1)) := by
  have hrun : ∀ i < 2, (call i).page.hasMore = true ∧
      (call i).page.messages.getLast?.map (·.seq) = some ((i : Int) + 1) := by
    decide +kernel
  intro i hi
  obtain ⟨hmore, hlast⟩ := hrun i hi
  obtain ⟨m, hm, hseq⟩ := Option.map_eq_some_iff.1 hlast
  refine ⟨hmore, ⟨m, hm, ?_⟩, rfl, rfl, rfl⟩
  simp [call, input, hseq]

end PullDemo

open PullDemo in
theorem pull_exact_demo : ∃ read : PullCall → Reading Demo.config Demo.accounts,
    (∀ i < 3, (call i).Exact trace (read (call i))) ∧
    [call 0, call 1, call 2].map (fun c ↦ (c.page.messages.map (·.seq), c.page.hasMore)) =
      [([1], true), ([2], true), ([3], false)] ∧
    (returnedSeqs [call 0, call 1, call 2]).Pairwise (· < ·) := by
  have hreach : Reachable (system Demo.config Demo.accounts) (World.finished trace calls.length) :=
    reachable_serial (by decide +kernel)
  obtain ⟨read, hread, hwalk⟩ := pull_exact hreach
  refine ⟨read, fun i hi ↦ (hread _ (done i hi)).1, by decide +kernel, (hwalk _ _ ?_ ?_).1⟩
  · exact .cons_cons (continues 0 (by decide)) (.cons_cons (continues 1 (by decide)) (.singleton _))
  · simp only [List.forall_mem_cons]
    exact ⟨done 0 (by decide), done 1 (by decide), done 2 (by decide), nofun⟩

end Nexo
