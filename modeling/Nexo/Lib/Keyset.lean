import Mathlib.Order.Lattice
import Mathlib.Data.List.Nodup
import Mathlib.Data.List.Perm.Subperm
import Mathlib.Order.Nat

/-!
# Paging through a collection by key

A client reads a collection page by page. A page is the first few elements strictly below a bound,
in descending order of their keys; the next bound is the key of the last element returned, and a
page with nothing left below it is the last. The collection may change between two pages: `T n` is
what page `n` finds.

Nothing about the changes is needed for the keys returned to descend, or for a key that was there
all along to be returned (`Scan.scanned`). When elements are only added or get higher keys
(`Grows`), no element is returned twice, whatever its keys were (`Scan.nodup_ids`).
-/

namespace Keyset

open List

variable {α κ ι : Type*} [LinearOrder κ] {key : α → κ} {id : α → ι}

/-- The keys go strictly down. -/
def Descending (key : α → κ) (l : List α) : Prop := l.Pairwise fun x y ↦ key y < key x

/-- **A page**: the first `n` elements of `T` below `c`, in descending order. -/
def IsPage (key : α → κ) (T : List α) (c : κ) (n : ℕ) (page : List α) : Prop :=
  ∃ all, (∀ x, x ∈ all ↔ x ∈ T ∧ key x < c) ∧ Descending key all ∧ page = all.take n

/-! ### One page -/

section Page

variable {T : List α} {c : κ} {n : ℕ} {page : List α}

theorem Descending.nodup_keys {l : List α} (h : Descending key l) : (l.map key).Nodup :=
  pairwise_map.2 (h.imp fun hlt ↦ hlt.ne')

theorem Descending.append {l l' : List α} (h : Descending key l) (h' : Descending key l')
    (hc : ∀ x ∈ l, c ≤ key x) (hc' : ∀ x ∈ l', key x < c) : Descending key (l ++ l') :=
  pairwise_append.2 ⟨h, h', fun x hx y hy ↦ (hc' y hy).trans_le (hc x hx)⟩

/-- The key of the last element is the least. -/
theorem Descending.last_le {l : List α} {last : α} (h : Descending key l)
    (hlast : l.getLast? = some last) : ∀ x ∈ l, key last ≤ key x := by
  obtain ⟨init, rfl⟩ := getLast?_eq_some_iff.1 hlast
  intro x hx
  rcases mem_append.1 hx with hx | hx
  · exact ((pairwise_append.1 h).2.2 x hx last (mem_singleton_self last)).le
  · rw [mem_singleton.1 hx]

section

variable (h : IsPage key T c n page)
include h

theorem IsPage.mem : ∀ x ∈ page, x ∈ T ∧ key x < c := by
  obtain ⟨all, hall, -, rfl⟩ := h
  exact fun x hx ↦ (hall x).1 (mem_of_mem_take hx)

theorem IsPage.length_le : page.length ≤ n := by
  obtain ⟨all, -, -, rfl⟩ := h
  exact length_take_le n all

theorem IsPage.descending : Descending key page := by
  obtain ⟨all, -, hdesc, rfl⟩ := h
  exact hdesc.sublist (take_sublist _ _)

/-- A shorter page is a part of a longer one. -/
theorem IsPage.take {k : ℕ} (hk : k ≤ n) :
    IsPage key T c k (page.take k) := by
  obtain ⟨all, hall, hdesc, rfl⟩ := h
  exact ⟨all, hall, hdesc, by rw [take_take, min_eq_left hk]⟩

/-- What is below the bound and not on the page is below the page. -/
theorem IsPage.below {x : α} (hx : x ∈ T) (hc : key x < c)
    (hpage : x ∉ page) : ∀ y ∈ page, key x < key y := by
  obtain ⟨all, hall, hdesc, rfl⟩ := h
  have hmem : x ∈ all.take n ++ all.drop n := by rw [take_append_drop]; exact (hall x).2 ⟨hx, hc⟩
  have hdrop : x ∈ all.drop n := (mem_append.1 hmem).resolve_left hpage
  rw [Descending, ← take_append_drop n all] at hdesc
  exact fun y hy ↦ (pairwise_append.1 hdesc).2.2 y hy x hdrop

/-- A page that is not full holds everything below the bound. -/
theorem IsPage.complete (hlen : page.length < n) {x : α} (hx : x ∈ T)
    (hc : key x < c) : x ∈ page := by
  obtain ⟨all, hall, -, rfl⟩ := h
  rw [length_take] at hlen
  rw [take_of_length_le (by omega)]
  exact (hall x).2 ⟨hx, hc⟩

end

end Page

/-! ### The walk -/

/-- **A walk** after `n` pages: what was returned, the bound of the next page, and whether there is
one. -/
inductive Scan (key : α → κ) (T : ℕ → List α) (c₀ : κ) : ℕ → List α → κ → Bool → Prop
  | start : Scan key T c₀ 0 [] c₀ true
  | next {n k : ℕ} {l page : List α} {c : κ} {last : α} (h : Scan key T c₀ n l c true)
      (hpage : IsPage key (T n) c k page) (hlast : page.getLast? = some last) :
      Scan key T c₀ (n + 1) (l ++ page) (key last) true
  | last {n k : ℕ} {l page : List α} {c : κ} (h : Scan key T c₀ n l c true)
      (hpage : IsPage key (T n) c k page) (hlen : page.length < k) :
      Scan key T c₀ (n + 1) (l ++ page) c false
  | done {n : ℕ} {l : List α} {c : κ} (h : Scan key T c₀ n l c false) :
      Scan key T c₀ (n + 1) l c false

/-- What holds of a walk, however the collection changes. -/
structure Scanned (key : α → κ) (T : ℕ → List α) (c₀ : κ) (n : ℕ) (l : List α) (c : κ)
    (more : Bool) : Prop where
  descending : Descending key l
  /-- what is returned was found by one of the pages -/
  found : ∀ x ∈ l, ∃ i < n, x ∈ T i
  /-- every page but the last returns something -/
  progress : more = true → n ≤ l.length
  bound : more = true → ∀ x ∈ l, c ≤ key x
  /-- a key that every page could find is returned, or still below the bound -/
  covered : ∀ k < c₀, (∀ i < n, k ∈ (T i).map key) → k ∈ l.map key ∨ more = true ∧ k < c

section Walk

variable {T : ℕ → List α} {c₀ c : κ} {n k : ℕ} {l page : List α} {more : Bool}

section

variable (h : Scanned key T c₀ n l c true)
include h

/-- A page extends what was returned. -/
theorem Scanned.append (hpage : IsPage key (T n) c k page) :
    Descending key (l ++ page) ∧ ∀ x ∈ l ++ page, ∃ i < n + 1, x ∈ T i := by
  refine ⟨h.descending.append hpage.descending (h.bound rfl) fun x hx ↦ (hpage.mem x hx).2,
    fun x hx ↦ ?_⟩
  rcases mem_append.1 hx with hx | hx
  · obtain ⟨i, hi, hx⟩ := h.found x hx
    exact ⟨i, by omega, hx⟩
  · exact ⟨n, by omega, (hpage.mem x hx).1⟩

/-- A key that every page could find is returned by now, or is the key of an element that this page
finds below its bound. -/
theorem Scanned.covered_succ {q : κ} (hq : q < c₀)
    (hT : ∀ i < n + 1, q ∈ (T i).map key) : q ∈ l.map key ∨ ∃ x ∈ T n, key x = q ∧ key x < c := by
  rcases h.covered q hq fun i hi ↦ hT i (by omega) with hl | ⟨-, hc⟩
  · exact .inl hl
  · obtain ⟨x, hx, rfl⟩ := mem_map.1 (hT n (by omega))
    exact .inr ⟨x, hx, rfl, hc⟩

theorem Scanned.next {last : α}
    (hpage : IsPage key (T n) c k page) (hlast : page.getLast? = some last) :
    Scanned key T c₀ (n + 1) (l ++ page) (key last) true := by
  have hmem : last ∈ page := mem_of_getLast? hlast
  obtain ⟨hdesc, hfound⟩ := h.append hpage
  refine ⟨hdesc, hfound, fun _ ↦ ?_, fun _ x hx ↦ ?_, fun q hq hT ↦ ?_⟩
  · have hpos := length_pos_of_mem hmem
    have hlen := h.progress rfl
    rw [length_append]
    omega
  · rcases mem_append.1 hx with hx | hx
    · exact (hpage.mem last hmem).2.le.trans (h.bound rfl x hx)
    · exact hpage.descending.last_le hlast x hx
  · rw [map_append, mem_append]
    rcases h.covered_succ hq hT with hl | ⟨x, hx, rfl, hc⟩
    · exact .inl (.inl hl)
    · by_cases hxp : x ∈ page
      · exact .inl (.inr (mem_map_of_mem hxp))
      · exact .inr ⟨rfl, hpage.below hx hc hxp last hmem⟩

theorem Scanned.last (hpage : IsPage key (T n) c k page)
    (hlen : page.length < k) : Scanned key T c₀ (n + 1) (l ++ page) c false := by
  obtain ⟨hdesc, hfound⟩ := h.append hpage
  refine ⟨hdesc, hfound, nofun, nofun, fun q hq hT ↦ .inl ?_⟩
  rw [map_append, mem_append]
  rcases h.covered_succ hq hT with hl | ⟨x, hx, rfl, hc⟩
  · exact .inl hl
  · exact .inr (mem_map_of_mem (hpage.complete hlen hx hc))

end

/-- **Every walk**, by induction over its pages. -/
theorem Scan.scanned (h : Scan key T c₀ n l c more) : Scanned key T c₀ n l c more := by
  induction h with
  | start => exact ⟨.nil, nofun, fun _ ↦ le_rfl, nofun, fun q hq _ ↦ .inr ⟨rfl, hq⟩⟩
  | next _ hpage hlast ih => exact ih.next hpage hlast
  | last _ hpage hlen ih => exact ih.last hpage hlen
  | done _ ih =>
    refine ⟨ih.descending, fun x hx ↦ ?_, nofun, nofun, fun q hq hT ↦ ?_⟩
    · obtain ⟨i, hi, hx⟩ := ih.found x hx
      exact ⟨i, by omega, hx⟩
    · exact ih.covered q hq fun i hi ↦ hT i (by omega)

/-! ### A collection that grows -/

/-- Elements are added, or get higher keys; nothing is removed. -/
def Grows (key : α → κ) (id : α → ι) (T T' : List α) : Prop :=
  ∀ x ∈ T, ∃ y ∈ T', id y = id x ∧ key x ≤ key y

theorem grows_of_le (h : ∀ i, Grows key id (T i) (T (i + 1))) {i j : ℕ} (hij : i ≤ j) :
    Grows key id (T i) (T j) := by
  induction j, hij using Nat.le_induction with
  | base => exact fun x hx ↦ ⟨x, hx, rfl, le_rfl⟩
  | succ j _ ih =>
    intro x hx
    obtain ⟨y, hy, hid, hle⟩ := ih x hx
    obtain ⟨z, hz, hid', hle'⟩ := h j y hy
    exact ⟨z, hz, hid'.trans hid, hle.trans hle'⟩

/-- A page finds no element that was returned before: its key was not below the bound then, and
cannot have sunk since. -/
theorem Scanned.id_ne (h : Scanned key T c₀ n l c true) (hpage : IsPage key (T n) c k page)
    (hgrow : ∀ i, Grows key id (T i) (T (i + 1))) (hid : ∀ i, ((T i).map id).Nodup) :
    ∀ x ∈ l, ∀ y ∈ page, id x ≠ id y := by
  intro x hx y hy heq
  obtain ⟨i, hi, hxT⟩ := h.found x hx
  obtain ⟨z, hz, hidz, hle⟩ := grows_of_le hgrow hi.le x hxT
  obtain ⟨hyT, hyc⟩ := hpage.mem y hy
  have hzy : z = y := inj_on_of_nodup_map (hid n) hz hyT (hidz.trans heq)
  exact absurd hyc (not_lt.2 (hzy ▸ (h.bound rfl x hx).trans hle))

theorem IsPage.nodup_ids {T : List α} (h : IsPage key T c k page) (hid : (T.map id).Nodup) :
    (page.map id).Nodup := by
  refine pairwise_map.2 (List.Pairwise.imp_of_mem ?_ h.descending)
  intro x y hx hy hlt heq
  exact hlt.ne' (congrArg key (inj_on_of_nodup_map hid (h.mem x hx).1 (h.mem y hy).1 heq))

/-- **No element is returned twice.** -/
theorem Scan.nodup_ids (hgrow : ∀ i, Grows key id (T i) (T (i + 1)))
    (hid : ∀ i, ((T i).map id).Nodup) (h : Scan key T c₀ n l c more) : (l.map id).Nodup := by
  have happend {n k : ℕ} {l page : List α} {c : κ} (h : Scan key T c₀ n l c true)
      (hpage : IsPage key (T n) c k page) (ih : (l.map id).Nodup) :
      ((l ++ page).map id).Nodup := by
    rw [map_append]
    refine ih.append (hpage.nodup_ids (hid _)) ?_
    rw [disjoint_left]
    intro a ha ha'
    obtain ⟨x, hx, rfl⟩ := mem_map.1 ha
    obtain ⟨y, hy, heq⟩ := mem_map.1 ha'
    exact h.scanned.id_ne hpage hgrow hid x hx y hy heq.symm
  induction h with
  | start => exact .nil
  | next h hpage _ ih | last h hpage _ ih => exact happend h hpage ih
  | done _ ih => exact ih

/-- **The walk ends**: more pages than there are elements cannot have been returned. -/
theorem Scan.ends (hgrow : ∀ i, Grows key id (T i) (T (i + 1))) (hid : ∀ i, ((T i).map id).Nodup)
    (h : Scan key T c₀ n l c more) (hn : (T n).length < n) : more = false := by
  have hsub : l.map id ⊆ (T n).map id := by
    intro a ha
    obtain ⟨x, hx, rfl⟩ := mem_map.1 ha
    obtain ⟨i, hi, hxT⟩ := h.scanned.found x hx
    obtain ⟨y, hy, hidy, -⟩ := grows_of_le hgrow hi.le x hxT
    exact mem_map.2 ⟨y, hy, hidy⟩
  have hlen := ((h.nodup_ids hgrow hid).subperm hsub).length_le
  rw [length_map, length_map] at hlen
  by_contra hmore
  have hprogress := h.scanned.progress (by simpa using hmore)
  omega

end Walk

end Keyset
