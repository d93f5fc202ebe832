import Nexo.Lib.Keyset
import Nexo.Service.Message
import Nexo.Service.Paging
import Mathlib.Data.Prod.Lex
import Mathlib.Data.List.Lex
import Mathlib.Algebra.BigOperators.Group.Finset.Basic

/-!
# Following the cursor from page to page

A client that starts with the empty cursor and hands each `next_cursor` back walks through the
conversations of its user. The store's listing is a page of `Nexo.Lib.Keyset` (`Lists`), for a
collation given by its sort keys; the codec of `Nexo.Service.Paging` carries the bound of a page to
the next one, so that the walk is a `Keyset.Scan` (`walk_scan`).

The row limit on its way into the statement is `int32(limit + 1)`. From a page size of `2 ^ 31 - 1`
on that is not `limit + 1` any more: it is negative, which the database refuses, or so small that a
page which is cut short there looks like the last one. The walk is right for every table **exactly
when** no page has such a size (`walksOnce_iff`).
-/

namespace Nexo

open Conv Keyset List
open Message (int32)

/-- A client that follows the cursors, `n` pages far: the pages, the cursor to continue with, and
whether there is more. Page `i` is asked of `st i`. -/
def walk (st : ℕ → Lister) (userId : String) (limit pageMax : ℕ → Int) :
    ℕ → Except Err (List (List UserConversationRow) × String × Bool)
  | 0 => .ok ([], "", true)
  | n + 1 =>
    match walk st userId limit pageMax n with
    | .error err => .error err
    | .ok (pages, cursor, false) => .ok (pages, cursor, false)
    | .ok (pages, cursor, true) =>
      match listPage (st n) userId cursor (limit n) (pageMax n) with
      | .error err => .error err
      | .ok (rows, next, more) => .ok (pages ++ [rows], next, more)

/-! ### What the store lists -/

section Listing

variable {κ : Type*} [LinearOrder κ] (sortKey : List UInt8 → κ)

/-- The place of a cursor in the order of the listing. -/
def ListCursor.place (c : ListCursor) : Time ×ₗ κ := toLex (c.updatedAt, sortKey c.conversationId)

def rowPlace (r : UserConversationRow) : Time ×ₗ κ := (rowCursor r).place sortKey

/-- **What `ListUserConversations` promises** about the rows of an owner: the first `int32(limit)`
below the cursor, and an error if that number is negative. -/
def Lists (userId : String) (rows : List UserConversationRow) (st : Lister) : Prop :=
  ∀ cursor limit,
    (0 ≤ int32 limit → ∃ page, st userId cursor limit = .ok page ∧
      IsPage (rowPlace sortKey) rows (cursor.place sortKey) (int32 limit).toNat page) ∧
    (int32 limit < 0 → ∃ err, st userId cursor limit = .error err)

/-- The statement itself on a list of rows. -/
def listRows (rows : List UserConversationRow) (cursor : ListCursor) (n : ℕ) :
    List UserConversationRow :=
  ((rows.filter fun r ↦ rowPlace sortKey r < cursor.place sortKey).mergeSort
    fun r r' ↦ rowPlace sortKey r' ≤ rowPlace sortKey r).take n

/-- `pgstore.Store.ListUserConversations` over fixed rows: a negative `LIMIT` is an error. -/
def rowLister (rows : List UserConversationRow) : Lister := fun _ cursor limit ↦
  if int32 limit < 0 then .error .failed
  else .ok (listRows sortKey rows cursor (int32 limit).toNat)

/-- `ListUserConversations`: the owner's rows, joined with the counters. -/
def Db.userConversationRows (d : Db) (owner : String) : List UserConversationRow :=
  (d.userConversations.rows.filter fun uc ↦ uc.ownerId = owner).filterMap fun uc ↦
    (d.conversations.get uc.conversationId).map fun cv ↦ { uc with convMaxSeq := cv.maxSeq }

def Db.listUserConversations (d : Db) : Lister := fun owner ↦
  rowLister sortKey (d.userConversationRows owner) owner

variable {sortKey}

omit [LinearOrder κ] in
theorem place_injective (hkey : Function.Injective sortKey) :
    Function.Injective (ListCursor.place sortKey) := by
  rintro ⟨t, c⟩ ⟨t', c'⟩ h
  obtain ⟨ht, hc⟩ : t = t' ∧ sortKey c = sortKey c' := Prod.mk.inj (toLex.injective h)
  rw [ht, hkey hc]

omit [LinearOrder κ] in
/-- Rows with different ids have different places. -/
theorem conversationId_of_rowPlace (hkey : Function.Injective sortKey) {r r' : UserConversationRow}
    (h : rowPlace sortKey r = rowPlace sortKey r') : r.conversationId = r'.conversationId :=
  utf8_injective (congrArg ListCursor.conversationId (place_injective hkey h))

theorem isPage_listRows (hkey : Function.Injective sortKey) {rows : List UserConversationRow}
    (hids : (rows.map (·.conversationId)).Nodup) (cursor : ListCursor) (n : ℕ) :
    IsPage (rowPlace sortKey) rows (cursor.place sortKey) n (listRows sortKey rows cursor n) := by
  let below := rows.filter fun r ↦ rowPlace sortKey r < cursor.place sortKey
  let le (r r' : UserConversationRow) : Bool := rowPlace sortKey r' ≤ rowPlace sortKey r
  have hperm : (below.mergeSort le).Perm below := mergeSort_perm below le
  refine ⟨below.mergeSort le, fun r ↦ ?_, ?_, rfl⟩
  · rw [hperm.mem_iff, mem_filter, decide_eq_true_iff]
  · have hsorted : (below.mergeSort le).Pairwise fun r r' ↦ le r r' = true :=
      pairwise_mergeSort (fun a b c hab hbc ↦ by
        simp only [le, decide_eq_true_eq] at *
        exact hbc.trans hab) (fun a b ↦ by simp [le, le_total]) below
    have hnodup : (below.mergeSort le).Pairwise fun r r' ↦ r.conversationId ≠ r'.conversationId :=
      hperm.symm.pairwise (pairwise_map.1 hids |>.filter _) fun h ↦ h.symm
    refine (hsorted.and hnodup).imp fun {r r'} h ↦ ?_
    have hle : rowPlace sortKey r' ≤ rowPlace sortKey r := by simpa [le] using h.1
    exact hle.lt_of_ne fun heq ↦ h.2 (conversationId_of_rowPlace hkey heq).symm

theorem lists_rowLister (hkey : Function.Injective sortKey) {rows : List UserConversationRow}
    (hids : (rows.map (·.conversationId)).Nodup) {userId : String} :
    Lists sortKey userId rows (rowLister sortKey rows) :=
  fun cursor _ ↦ ⟨fun hpos ↦ ⟨_, if_neg (not_lt.2 hpos), isPage_listRows hkey hids cursor _⟩,
    fun hneg ↦ ⟨_, if_pos hneg⟩⟩

/-- One row for each conversation of an owner. -/
theorem Db.nodup_userConversationRows (d : Db) (owner : String) :
    ((d.userConversationRows owner).map (·.conversationId)).Nodup := by
  have hrows : d.userConversations.rows.Nodup := d.userConversations.nodup_rows fun _ ↦ nofun
  refine pairwise_map.2 (pairwise_filterMap.2 ?_)
  refine List.Pairwise.imp_of_mem ?_ (hrows.filter _)
  intro uc uc' huc huc' hne r hr r' hr' heq
  rw [mem_filter, decide_eq_true_iff] at huc huc'
  obtain ⟨cv, -, rfl⟩ := Option.map_eq_some_iff.1 hr
  obtain ⟨cv', -, rfl⟩ := Option.map_eq_some_iff.1 hr'
  -- the key of both rows is the owner with the same conversation
  refine hne (Relational.Table.eq_of_mem_keys huc.1 huc'.1 (k := (owner, uc.conversationId)) ?_ ?_)
  · simp [UserConversation.keys, huc.2]
  · simpa [UserConversation.keys, huc'.2] using heq

/-- **The tables of the store list what they promise.** -/
theorem Db.lists_listUserConversations (hkey : Function.Injective sortKey) (d : Db)
    (owner : String) :
    Lists sortKey owner (d.userConversationRows owner) (d.listUserConversations sortKey) :=
  lists_rowLister hkey (d.nodup_userConversationRows owner)

end Listing

/-! ### One page -/

/-- The rows of an owner as the walk may meet them: an id each, and a time before the first page's
that is a number of milliseconds in 64 bits. -/
structure Pageable (rows : List UserConversationRow) : Prop where
  ids : (rows.map (·.conversationId)).Nodup
  id_ne : ∀ r ∈ rows, r.conversationId ≠ ""
  fits : ∀ r ∈ rows, Strconv.Fits r.updatedAt
  before : ∀ r ∈ rows, r.updatedAt < firstPage.updatedAt

/-- One row more than a page of fewer than `2 ^ 31 - 1` rows is asked for, and nothing wraps around.
-/
theorem rowLimit_eq {limit pageMax : Int} (h : pageSize limit pageMax < 2 ^ 31 - 1) :
    int64 (pageSize limit pageMax + 1) = pageSize limit pageMax + 1 ∧
      int32 (pageSize limit pageMax + 1) = pageSize limit pageMax + 1 := by
  have hone := one_le_pageSize limit pageMax
  unfold int64 int32
  constructor <;> omega

/-- A row's cursor is read back. -/
theorem decodeCursor_rowCursor {rows : List UserConversationRow} (h : Pageable rows)
    {r : UserConversationRow} (hr : r ∈ rows) :
    decodeCursor (encodeCursor (rowCursor r)) = some (rowCursor r) :=
  decodeCursor_encodeCursor (h.fits r hr) fun hnil ↦ h.id_ne r hr (utf8_eq_nil.1 hnil)

/-- **One page**: the last of the walk, or a full one whose last row bounds the next. -/
theorem listPage_cases {st : Lister} {userId cursor : String} {limit pageMax : Int}
    {cur : ListCursor} {rows : List UserConversationRow} (hcur : decodeCursor cursor = some cur)
    (hsize : pageSize limit pageMax < 2 ^ 31 - 1)
    (hst : st userId cur (pageSize limit pageMax + 1) = .ok rows) :
    (rows.length < (pageSize limit pageMax + 1).toNat ∧
      listPage st userId cursor limit pageMax = .ok (rows, "", false)) ∨
    ∃ last, (rows.take (pageSize limit pageMax).toNat).getLast? = some last ∧
      listPage st userId cursor limit pageMax =
        .ok (rows.take (pageSize limit pageMax).toNat, encodeCursor (rowCursor last), true) := by
  have hone := one_le_pageSize limit pageMax
  unfold listPage
  simp only [hcur, (rowLimit_eq hsize).1, hst]
  by_cases h : (rows.length : Int) ≤ pageSize limit pageMax
  · exact .inl ⟨by omega, dif_pos h⟩
  · exact .inr ⟨_, getLast?_eq_some_getLast (take_ne_nil h), dif_neg h⟩

/-! ### The walk -/

section Walk

variable {κ : Type*} [LinearOrder κ] {sortKey : List UInt8 → κ} {userId : String}
  {T : ℕ → List UserConversationRow} {st : ℕ → Lister} {limit pageMax : ℕ → Int} {n : ℕ}
  {rows : List UserConversationRow} {pages : List (List UserConversationRow)} {cursor : String}

/-- **The walk is a scan** of the tables its pages find, as long as no page is too large. -/
theorem walk_scan (hT : ∀ i, Pageable (T i)) (hst : ∀ i, Lists sortKey userId (T i) (st i))
    (hsize : ∀ i < n, pageSize (limit i) (pageMax i) < 2 ^ 31 - 1) :
    ∃ pages cursor more cur, walk st userId limit pageMax n = .ok (pages, cursor, more) ∧
      Scan (rowPlace sortKey) T (firstPage.place sortKey) n pages.flatten (cur.place sortKey) more ∧
      (more = true → decodeCursor cursor = some cur) := by
  induction n with
  | zero => exact ⟨[], "", true, firstPage, rfl, .start, fun _ ↦ rfl⟩
  | succ n ih =>
    obtain ⟨pages, cursor, more, cur, hwalk, hscan, hcur⟩ := ih fun i hi ↦ hsize i (by omega)
    rcases more with - | -
    · exact ⟨pages, cursor, false, cur, by rw [walk, hwalk], .done hscan, nofun⟩
    have hone := one_le_pageSize (limit n) (pageMax n)
    have hlimit := (rowLimit_eq (hsize n (by omega))).2
    obtain ⟨rows, hrows, hpage⟩ := (hst n cur (pageSize (limit n) (pageMax n) + 1)).1 (by omega)
    rw [hlimit] at hpage
    rcases listPage_cases (hcur rfl) (hsize n (by omega)) hrows with ⟨hlen, heq⟩ | ⟨last, hlast, heq⟩
    · refine ⟨pages ++ [rows], "", false, cur, by simp only [walk, hwalk, heq], ?_, nofun⟩
      rw [flatten_concat]
      exact .last hscan hpage hlen
    · have hfull := hpage.take (k := (pageSize (limit n) (pageMax n)).toNat) (by omega)
      have hmem := (hfull.mem last (mem_of_getLast? hlast)).1
      refine ⟨pages ++ [rows.take (pageSize (limit n) (pageMax n)).toNat], encodeCursor (rowCursor last),
        true, rowCursor last, by simp only [walk, hwalk, heq], ?_, fun _ ↦ decodeCursor_rowCursor (hT n) hmem⟩
      rw [flatten_concat]
      exact .next hscan hfull hlast

/-! ### What the walk promises -/

/-- Between two pages rows are added, or their `updated_at` is raised. -/
def OnlyRaised (rows rows' : List UserConversationRow) : Prop :=
  ∀ r ∈ rows, ∃ r' ∈ rows', r'.conversationId = r.conversationId ∧ r.updatedAt ≤ r'.updatedAt

/-- What the first `n` pages promise when page `i` finds the rows `T i`. -/
structure Walked (sortKey : List UInt8 → κ) (T : ℕ → List UserConversationRow) (n : ℕ)
    (pages : List (List UserConversationRow)) (more : Bool) : Prop where
  /-- the keys go strictly down, also from one page to the next -/
  descending : Descending (rowPlace sortKey) pages.flatten
  /-- no row is returned twice -/
  once : (pages.flatten.map (·.conversationId)).Nodup
  found : ∀ r ∈ pages.flatten, ∃ i < n, r ∈ T i
  /-- there cannot be more pages than rows -/
  ends : (T n).length < n → more = false
  /-- a row that kept its key during the whole walk is returned exactly once -/
  untouched : more = false → ∀ k : ListCursor, (∀ i < n, k ∈ (T i).map rowCursor) →
    (pages.flatten.map rowCursor).count k = 1

/-- **The walk is right**: on rows that grow at every moment, and on fixed rows it ends with each
row exactly once. -/
def WalksOnce (sortKey : List UInt8 → κ) (userId : String) (limit pageMax : ℕ → Int) : Prop :=
  ∀ (T : ℕ → List UserConversationRow) (st : ℕ → Lister), (∀ i, Pageable (T i)) →
    (∀ i, Lists sortKey userId (T i) (st i)) → (∀ i, OnlyRaised (T i) (T (i + 1))) →
    (∀ n, ∃ pages cursor more, walk st userId limit pageMax n = .ok (pages, cursor, more) ∧
      Walked sortKey T n pages more) ∧
    ((∀ i, T i = T 0) → ∃ n pages cursor,
      walk st userId limit pageMax n = .ok (pages, cursor, false) ∧
        Descending (rowPlace sortKey) pages.flatten ∧ pages.flatten.Perm (T 0))

/-- A raised row moves up in the listing. -/
theorem grows_of_onlyRaised {rows' : List UserConversationRow} (h : OnlyRaised rows rows') :
    Grows (rowPlace sortKey) (·.conversationId) rows rows' := by
  intro r hr
  obtain ⟨r', hr', hid, hle⟩ := h r hr
  refine ⟨r', hr', hid, ?_⟩
  rw [rowPlace, rowPlace, ListCursor.place, ListCursor.place, Prod.Lex.toLex_le_toLex]
  rcases lt_or_eq_of_le hle with hlt | heq
  · exact .inl hlt
  · refine .inr ⟨heq, ?_⟩
    rw [rowCursor, rowCursor, hid]

/-- Every row is below the first cursor. -/
theorem rowPlace_lt_firstPage (h : Pageable rows) {r : UserConversationRow} (hr : r ∈ rows) :
    rowPlace sortKey r < firstPage.place sortKey :=
  Prod.Lex.toLex_lt_toLex.2 (.inl (h.before r hr))

/-- A key that every page could find is a row of the first of them, and returned by the end. -/
theorem mem_of_done {l : List UserConversationRow} {c : Time ×ₗ κ}
    (hkey : Function.Injective sortKey) (hT : ∀ i, Pageable (T i))
    (h : Scan (rowPlace sortKey) T (firstPage.place sortKey) n l c false) {k : ListCursor}
    (hk : ∀ i < n, k ∈ (T i).map rowCursor) : k ∈ l.map rowCursor := by
  have hpos : 0 < n := by
    rcases n with - | n
    · cases h
    · omega
  obtain ⟨r, hr, rfl⟩ := mem_map.1 (hk 0 hpos)
  have hplaces : ∀ i < n, rowPlace sortKey r ∈ (T i).map (rowPlace sortKey) := by
    intro i hi
    obtain ⟨r', hr', heq⟩ := mem_map.1 (hk i hi)
    exact mem_map.2 ⟨r', hr', congrArg (ListCursor.place sortKey) heq⟩
  rcases h.scanned.covered _ (rowPlace_lt_firstPage (hT 0) hr) hplaces with hmem | ⟨hmore, -⟩
  · obtain ⟨x, hx, heq⟩ := mem_map.1 hmem
    exact mem_map.2 ⟨x, hx, place_injective hkey heq⟩
  · exact absurd hmore nofun

theorem walked_of_scan {c : Time ×ₗ κ} {more : Bool} (hkey : Function.Injective sortKey)
    (hT : ∀ i, Pageable (T i)) (hgrow : ∀ i, OnlyRaised (T i) (T (i + 1)))
    (h : Scan (rowPlace sortKey) T (firstPage.place sortKey) n pages.flatten c more) :
    Walked sortKey T n pages more := by
  have hgrow' (i : ℕ) : Grows (rowPlace sortKey) (·.conversationId) (T i) (T (i + 1)) :=
    grows_of_onlyRaised (hgrow i)
  refine ⟨h.scanned.descending, h.nodup_ids hgrow' fun i ↦ (hT i).ids, h.scanned.found,
    h.ends hgrow' fun i ↦ (hT i).ids, ?_⟩
  rintro rfl k hk
  have hnodup : (pages.flatten.map rowCursor).Nodup := by
    refine List.Nodup.of_map (ListCursor.place sortKey) ?_
    rw [map_map]
    exact h.scanned.descending.nodup_keys
  exact count_eq_one_of_mem hnodup (mem_of_done hkey hT h hk)

/-- On fixed rows, what a finished walk returned is all of them. -/
theorem perm_of_done (hrows : Pageable rows) (h : Walked sortKey (fun _ ↦ rows) n pages false) :
    pages.flatten.Perm rows := by
  rw [perm_ext_iff_of_nodup (List.Nodup.of_map _ h.once) (List.Nodup.of_map _ hrows.ids)]
  refine fun r ↦ ⟨fun hr ↦ (h.found r hr).choose_spec.2, fun hr ↦ ?_⟩
  have hcount := h.untouched rfl (rowCursor r) fun _ _ ↦ mem_map_of_mem hr
  obtain ⟨x, hx, heq⟩ := mem_map.1 (count_pos_iff.1 (hcount ▸ Nat.one_pos))
  obtain ⟨i, hi, hxrows⟩ := h.found x hx
  have hid : x.conversationId = r.conversationId :=
    utf8_injective (congrArg ListCursor.conversationId heq)
  exact inj_on_of_nodup_map hrows.ids hxrows hr hid ▸ hx

/-- **Every walk without an oversized page is right.** -/
theorem walksOnce_of_size (hkey : Function.Injective sortKey)
    (hsize : ∀ i, pageSize (limit i) (pageMax i) < 2 ^ 31 - 1) :
    WalksOnce sortKey userId limit pageMax := by
  intro T st hT hst hgrow
  have hwalk (n : ℕ) : ∃ pages cursor more, walk st userId limit pageMax n =
      .ok (pages, cursor, more) ∧ Walked sortKey T n pages more := by
    obtain ⟨pages, cursor, more, cur, hwalk, hscan, -⟩ := walk_scan hT hst (n := n) fun i _ ↦ hsize i
    exact ⟨pages, cursor, more, hwalk, walked_of_scan hkey hT hgrow hscan⟩
  refine ⟨hwalk, fun hfixed ↦ ?_⟩
  obtain ⟨pages, cursor, more, heq, hok⟩ := hwalk ((T 0).length + 1)
  obtain rfl : more = false := hok.ends (by rw [hfixed]; omega)
  rw [show T = fun _ ↦ T 0 from funext hfixed] at hok
  exact ⟨_, pages, cursor, heq, hok.descending, perm_of_done (hT 0) hok⟩

/-! ### An oversized page -/

theorem length_listPage_le {lister : Lister} {next : String} {limit pageMax : Int} {more : Bool}
    (h : listPage lister userId cursor limit pageMax = .ok (rows, next, more)) :
    rows.length ≤ (pageSize limit pageMax).toNat := by
  unfold listPage at h
  split at h
  · cases h
  split at h
  · cases h
  split at h
  next hlen =>
    cases h
    omega
  next =>
    cases h
    rw [length_take]
    omega

/-- The walk returns no more rows than its pages have room for. -/
theorem length_walk_le {more : Bool}
    (h : walk st userId limit pageMax n = .ok (pages, cursor, more)) :
    pages.flatten.length ≤ ∑ i ∈ Finset.range n, (pageSize (limit i) (pageMax i)).toNat := by
  induction n generalizing pages cursor more with
  | zero =>
    cases h
    exact Nat.zero_le _
  | succ n ih =>
    rw [Finset.sum_range_succ]
    rw [walk] at h
    split at h
    · cases h
    next hprev =>
      cases h
      exact (ih hprev).trans (Nat.le_add_right _ _)
    next hprev =>
      split at h
      · cases h
      next hpage =>
        cases h
        rw [flatten_concat, length_append]
        exact Nat.add_le_add (ih hprev) (length_listPage_le hpage)

/-- A walk that has ended stays as it is. -/
theorem walk_of_done {m : ℕ} (h : walk st userId limit pageMax n = .ok (pages, cursor, false))
    (hnm : n ≤ m) :
    walk st userId limit pageMax m = .ok (pages, cursor, false) := by
  induction m, hnm using Nat.le_induction with
  | base => exact h
  | succ m _ ih => rw [walk, ih]

/-- As many rows as needed, all of the same time. -/
def fillRow (userId : String) (j : ℕ) : UserConversationRow where
  ownerId := userId
  conversationId := .ofList (List.replicate (j + 1) 'a')
  type := conversationSingle
  updatedAt := 0
  convMaxSeq := 0

theorem pageable_fillRow (userId : String) (n : ℕ) :
    Pageable ((range n).map (fillRow userId)) := by
  refine ⟨?_, ?_, ?_, ?_⟩
  · rw [map_map]
    refine nodup_range.map fun i j h ↦ ?_
    have hlen := congrArg String.length h
    simpa [fillRow] using hlen
  all_goals
    intro r hr
    obtain ⟨j, -, rfl⟩ := mem_map.1 hr
  · intro h
    simpa [fillRow] using congrArg String.length h
  · exact show Strconv.Fits 0 from ⟨by decide, by decide⟩
  · exact show (0 : Int) < 253370764800000 by decide

/-- **An oversized page is the last one**, whatever it returns: the store is asked for fewer rows
than the page has room for. -/
theorem listPage_oversized {lister : Lister} {limit pageMax : Int} {cur : ListCursor}
    (hcur : decodeCursor cursor = some cur)
    (hlist : lister userId cur (int64 (pageSize limit pageMax + 1)) = .ok rows)
    (hlen : (rows.length : Int) ≤ pageSize limit pageMax) :
    listPage lister userId cursor limit pageMax = .ok (rows, "", false) := by
  unfold listPage
  simp only [hcur, hlist]
  exact dif_pos hlen

theorem not_walksOnce (hkey : Function.Injective sortKey) (i₀ : ℕ)
    (hover : 2 ^ 31 - 1 ≤ pageSize (limit i₀) (pageMax i₀))
    (hbefore : ∀ i < i₀, pageSize (limit i) (pageMax i) < 2 ^ 31 - 1) :
    ¬ WalksOnce sortKey userId limit pageMax := by
  intro hwalks
  let rowLimit := int64 (pageSize (limit i₀) (pageMax i₀) + 1)
  have hsmall : int32 rowLimit < 2 ^ 31 := by
    unfold int32
    omega
  -- one row more than the pages before have room for, and than this page asks for
  let room := ∑ i ∈ Finset.range i₀, (pageSize (limit i) (pageMax i)).toNat
  let rows := (range (room + (int32 rowLimit).toNat + 1)).map (fillRow userId)
  let lister : Lister := rowLister sortKey rows
  have hrows : Pageable rows := pageable_fillRow userId _
  have hlen : rows.length = room + (int32 rowLimit).toNat + 1 := by simp [rows]
  have hlists : Lists sortKey userId rows lister := lists_rowLister hkey hrows.ids
  have hraised : OnlyRaised rows rows := fun r hr ↦ ⟨r, hr, rfl, le_rfl⟩
  obtain ⟨hevery, hfixed⟩ := hwalks (fun _ ↦ rows) (fun _ ↦ lister) (fun _ ↦ hrows) (fun _ ↦ hlists)
    fun _ ↦ hraised
  obtain ⟨pages, cursor, more, cur, hwalk, hscan, hcur⟩ :=
    walk_scan (T := fun _ ↦ rows) (fun _ ↦ hrows) (fun _ ↦ hlists) hbefore
  have hroom : pages.flatten.length ≤ room := length_walk_le hwalk
  obtain rfl : more = true := by
    by_contra hmore
    obtain rfl : more = false := by simpa using hmore
    have hperm := perm_of_done hrows (walked_of_scan hkey (fun _ ↦ hrows) (fun _ ↦ hraised) hscan)
    have := hperm.length_eq
    omega
  rcases lt_or_ge (int32 rowLimit) 0 with hneg | hpos
  · -- the statement fails, and the walk with it
    obtain ⟨err, herr⟩ := (hlists cur rowLimit).2 hneg
    obtain ⟨_, _, _, hok, -⟩ := hevery (i₀ + 1)
    simp only [walk, hwalk, listPage, hcur rfl, rowLimit, herr] at hok
    cases hok
  · -- the page is cut short, and taken for the last one
    obtain ⟨page, hpage, hshort⟩ := (hlists cur rowLimit).1 hpos
    have hcut : page.length ≤ (int32 rowLimit).toNat := hshort.length_le
    have hnext : walk (fun _ ↦ lister) userId limit pageMax (i₀ + 1) =
        .ok (pages ++ [page], "", false) := by
      simp only [walk, hwalk, listPage_oversized (hcur rfl) hpage (by omega)]
    obtain ⟨n, pages', cursor', hend, -, hperm⟩ := hfixed fun _ ↦ rfl
    have hperm' := hperm.length_eq
    rcases Nat.lt_or_ge i₀ n with hlt | hge
    · have heq := hend.symm.trans (walk_of_done hnext hlt)
      obtain rfl : pages' = pages ++ [page] := (Prod.mk.inj (Except.ok.inj heq)).1
      rw [flatten_concat, length_append] at hperm'
      omega
    · have heq := (walk_of_done hend hge).symm.trans hwalk
      simp at heq

/-- **Exactly the page sizes from `2 ^ 31 - 1` on break the walk.** -/
theorem walksOnce_iff (hkey : Function.Injective sortKey) :
    WalksOnce sortKey userId limit pageMax ↔
      ∀ i, pageSize (limit i) (pageMax i) < 2 ^ 31 - 1 := by
  constructor
  · intro h
    by_contra hover
    push Not at hover
    classical
    have hbefore (i : ℕ) (hi : i < Nat.find hover) : pageSize (limit i) (pageMax i) < 2 ^ 31 - 1 :=
      lt_of_not_ge (Nat.find_min hover hi)
    exact not_walksOnce hkey _ (Nat.find_spec hover) hbefore h
  · exact walksOnce_of_size hkey

end Walk

/-- The collation that compares ids byte by byte. -/
def byteKey (id : List UInt8) : List ℕ := id.map UInt8.toNat

theorem byteKey_injective : Function.Injective byteKey :=
  map_injective_iff.2 fun _ _ ↦ UInt8.toNat_inj.1

namespace PagingDemo

/-- A user with three conversations. -/
def db : Db :=
  let ids := ["si_u___1:u___2", "si_u___1:u___3", "sg_g"]
  { Db.empty .empty with
    conversations := ⟨ids.map fun id ↦
      { conversationId := id, type := 1, groupId := "", maxSeq := 1, createdAt := 5, updatedAt := 5 },
      by decide⟩
    userConversations := ⟨ids.map fun id ↦
      { ownerId := "u___1", conversationId := id, type := 1, updatedAt := 5 }, by decide⟩ }

theorem pageable : Pageable (db.userConversationRows "u___1") :=
  ⟨by decide +kernel, by decide +kernel, by unfold Strconv.Fits; decide +kernel, by decide +kernel⟩

end PagingDemo

open PagingDemo in
/-- Pages of two rows, asked for without a limit. -/
theorem walksOnce_iff_demo :
    WalksOnce byteKey "u___1" (fun _ ↦ 0) (fun _ ↦ 2) ∧
      ∃ n pages cursor, walk (fun _ ↦ db.listUserConversations byteKey) "u___1" (fun _ ↦ 0)
        (fun _ ↦ 2) n = .ok (pages, cursor, false) ∧
          pages.flatten.Perm (db.userConversationRows "u___1") := by
  have hwalks : WalksOnce byteKey "u___1" (fun _ ↦ 0) (fun _ ↦ 2) :=
    (walksOnce_iff byteKey_injective).2 fun _ ↦ by decide
  obtain ⟨n, pages, cursor, hwalk, -, hperm⟩ :=
    (hwalks _ _ (fun _ ↦ pageable) (fun _ ↦ db.lists_listUserConversations byteKey_injective "u___1")
      fun _ r hr ↦ ⟨r, hr, rfl, le_rfl⟩).2 fun _ ↦ rfl
  exact ⟨hwalks, n, pages, cursor, hwalk, hperm⟩

open PagingDemo in
/-- With the page maximum `2 ^ 32 - 1` the row limit is 0, and no row of the user is returned; with
`2 ^ 31 - 1` it is negative, and every page fails. -/
theorem oversized_page_drops_row :
    (walk (fun _ ↦ db.listUserConversations byteKey) "u___1" (fun _ ↦ 0) (fun _ ↦ 2 ^ 32 - 1) 1).toOption =
        some ([[]], "", false) ∧
      (walk (fun _ ↦ db.listUserConversations byteKey) "u___1" (fun _ ↦ 0) (fun _ ↦ 2 ^ 31 - 1)
        1).toOption = none ∧
      ¬ WalksOnce byteKey "u___1" (fun _ ↦ 0) (fun _ ↦ 2 ^ 32 - 1) :=
  ⟨by decide +kernel, by decide +kernel, not_walksOnce byteKey_injective 0 (by decide) nofun⟩

end Nexo
