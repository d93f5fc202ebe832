import Nexo.Service.Message
import Mathlib.Data.Int.Range

/-!
# The client's synchronisation loop

`web/src/client/sync.ts`: `syncRange` fetches the messages of a conversation page by page, from the
client's cursor to the bound the server reported, and commits a page only if it continues the cursor
without a gap. What it talks to is a parameter here: `api` answers a query and moves on to the next
state of the world, `aborted` is the session's abort signal.

The loop needs no fuel: a page that passes the check moves the cursor up, and never past the bound.
-/

namespace Nexo.Client

open Message List

/-- `Bounds` -/
abbrev Bounds := MaxSeqItem

/-- The query of `/message/pull`. -/
structure PullQuery where
  conversationId : String
  beginSeq : Int
  endSeq : Int
  limit : Int

/-- What `syncRange` throws. -/
inductive Thrown where
  /-- the request failed -/
  | request (err : Err)
  /-- `signal.throwIfAborted()` -/
  | aborted
  /-- `new Error(text)` -/
  | error (text : String)

def visibleRangeChanged : Thrown := .error "消息可见范围已变化，请重新同步"
def notContiguous : Thrown := .error "消息序号不连续，未推进同步进度，请重新同步"

/-- What a run of `syncRange` leaves behind: the calls of `commit`, in order, whether it threw, and
the world. -/
structure Outcome (σ : Type) where
  commits : List (List Dto.Message × Int)
  result : Except Thrown Unit
  world : σ

/-- The loop over the messages of a page. -/
def checkPage (bounds : Bounds) : Int → List Dto.Message → Except Thrown Int
  | next, [] => .ok next
  | next, message :: messages =>
    if message.conversationId ≠ bounds.conversationId ∨ message.seq ≠ next + 1 ∨
        message.seq > bounds.maxSeq then
      .error notContiguous
    else checkPage bounds message.seq messages

/-! ### Ranges of numbers -/

theorem range_eq_nil {a b : Int} (h : b ≤ a) : Int.range a b = [] := by
  rw [Int.range, Int.toNat_of_nonpos (by omega)]
  rfl

theorem pairwise_range (a b : Int) : (Int.range a b).Pairwise (· < ·) := by
  rw [Int.range, pairwise_map]
  exact pairwise_lt_range.imp fun h ↦ by omega

theorem range_append {a b c : Int} (hab : a ≤ b) (hbc : b ≤ c) :
    Int.range a c = Int.range a b ++ Int.range b c := by
  have hlen : (c - a).toNat = (b - a).toNat + (c - b).toNat := by omega
  rw [Int.range, Int.range, Int.range, hlen, range_add, map_append, map_map]
  congr 1
  refine map_congr_left fun n _ ↦ ?_
  simp only [Function.comp_apply]
  push_cast
  omega

theorem range_eq_cons {a b : Int} (h : a < b) : Int.range a b = a :: Int.range (a + 1) b := by
  rw [range_append (b := a + 1) (by omega) (by omega)]
  simp [Int.range]

/-! ### The check of a page -/

/-- What a page that moves the cursor from `next` to `n` has passed. -/
structure Passed (bounds : Bounds) (next n : Int) (messages : List Dto.Message) : Prop where
  length : n = next + messages.length
  conv : ∀ message ∈ messages, message.conversationId = bounds.conversationId
  seqs : messages.map (·.seq) = Int.range (next + 1) (n + 1)
  le : next ≤ bounds.maxSeq → n ≤ bounds.maxSeq

variable {bounds : Bounds} {messages : List Dto.Message}

/-- **A page that passes the check** is of the conversation, continues the cursor without a gap and
stays within the bound. -/
theorem passed_of_checkPage {next n : Int} (h : checkPage bounds next messages = .ok n) :
    Passed bounds next n messages := by
  induction messages generalizing next with
  | nil =>
    cases h
    exact ⟨by simp, nofun, (range_eq_nil le_rfl).symm, id⟩
  | cons message messages ih =>
    rw [checkPage] at h
    split at h
    · cases h
    next hgood =>
      simp only [not_or, not_not, not_lt] at hgood
      obtain ⟨hconv, hseq, hmax⟩ := hgood
      have htail := ih h
      have hlen : n = next + (message :: messages).length := by
        rw [htail.length, hseq, length_cons]
        push_cast
        omega
      refine ⟨hlen, forall_mem_cons.2 ⟨hconv, htail.conv⟩, ?_, fun _ ↦ htail.le hmax⟩
      rw [length_cons] at hlen
      rw [map_cons, htail.seqs, hseq, ← range_eq_cons (by omega)]

/-- A page that passes has every message up to the new cursor. -/
theorem Passed.exists_mem {next n s : Int} (h : Passed bounds next n messages) (hlow : next < s)
    (hhigh : s ≤ n) :
    ∃ message ∈ messages, message.seq = s :=
  mem_map.1 (h.seqs ▸ Int.mem_range_iff.2 ⟨hlow, Int.lt_add_one_of_le hhigh⟩)

theorem checkPage_progress {local_ next : Int} (hlt : local_ < bounds.maxSeq) (hne : messages ≠ [])
    (h : checkPage bounds local_ messages = .ok next) :
    (bounds.maxSeq - next).toNat < (bounds.maxSeq - local_).toNat := by
  have hlen := length_pos_iff.2 hne
  have heq := (passed_of_checkPage h).length
  omega

/-! ### The loop -/

section Loop

variable {σ : Type} (api : σ → PullQuery → Except Err PullResult × σ) (aborted : σ → Bool)
  (bounds : Bounds)

/-- The query of one round. -/
def roundQuery (local_ : Int) : PullQuery where
  conversationId := bounds.conversationId
  beginSeq := local_ + 1
  endSeq := bounds.maxSeq
  limit := 100

/-- The `while` loop of `syncRange`. -/
def syncLoop (local_ : Int) (world : σ) : Outcome σ :=
  if hlt : local_ < bounds.maxSeq then
    match api world (roundQuery bounds local_) with
    | (.error err, world) => ⟨[], .error (.request err), world⟩
    | (.ok page, world) =>
      if aborted world then ⟨[], .error .aborted, world⟩
      else if hempty : page.messages = [] then ⟨[], .error visibleRangeChanged, world⟩
      else
        match hnext : checkPage bounds local_ page.messages with
        | .error thrown => ⟨[], .error thrown, world⟩
        | .ok next =>
          have := checkPage_progress hlt hempty hnext
          let rest := syncLoop next world
          { rest with commits := (page.messages, next) :: rest.commits }
  else ⟨[], .ok (), world⟩
termination_by (bounds.maxSeq - local_).toNat

/-- `syncRange` -/
def syncRange (cursor : Int) (world : σ) : Outcome σ :=
  let local_ := min (max cursor (bounds.minSeq - 1)) bounds.maxSeq
  let rest := syncLoop api aborted bounds local_ world
  { rest with commits := ([], local_) :: rest.commits }

variable {api aborted bounds} {msg : Int → Dto.Message}

theorem syncLoop_done {local_ : Int} (h : ¬ local_ < bounds.maxSeq) (world : σ) :
    syncLoop api aborted bounds local_ world = ⟨[], .ok (), world⟩ := by
  rw [syncLoop, dif_neg h]

/-- A round that goes well. -/
theorem syncLoop_round {local_ next : Int} {world world' : σ} {page : PullResult}
    (hlt : local_ < bounds.maxSeq)
    (hapi : api world (roundQuery bounds local_) = (.ok page, world'))
    (habort : aborted world' = false) (hne : page.messages ≠ [])
    (hcheck : checkPage bounds local_ page.messages = .ok next) :
    syncLoop api aborted bounds local_ world =
      { syncLoop api aborted bounds next world' with
        commits := (page.messages, next) :: (syncLoop api aborted bounds next world').commits } := by
  rw [syncLoop, dif_pos hlt, hapi]
  simp only [habort, Bool.false_eq_true, if_false, dif_neg hne]
  split
  · next thrown herr =>
    rw [hcheck] at herr
    cases herr
  · next n hn =>
    obtain rfl := Except.ok.inj (hcheck.symm.trans hn)
    rfl

section

variable (hmsg : ∀ s, (msg s).conversationId = bounds.conversationId ∧ (msg s).seq = s)
include hmsg

theorem checkPage_of_range (local_ : Int)
    (k : ℕ) (hk : local_ + k ≤ bounds.maxSeq) :
    checkPage bounds local_ ((Int.range (local_ + 1) (local_ + 1 + k)).map msg) =
      .ok (local_ + k) := by
  induction k generalizing local_ with
  | zero => simp [Int.range, checkPage]
  | succ k ih =>
    rw [range_eq_cons (by omega), map_cons, checkPage, if_neg, (hmsg _).2]
    · have htail := ih (local_ + 1) (by push_cast at hk; omega)
      rw [show local_ + 1 + 1 + (k : Int) = local_ + 1 + (k + 1 : ℕ) by push_cast; omega] at htail
      rw [htail]
      push_cast
      congr 1
      omega
    · obtain ⟨hconv, hseq⟩ := hmsg (local_ + 1)
      refine not_or.2 ⟨not_not.2 hconv, ?_⟩
      rw [hseq]
      push_cast at hk
      omega

/-- **The loop is complete against a good server.** Suppose every query for what follows the cursor
is answered with a page that continues it: some of the next messages, at least one. Then the loop
ends without throwing, has committed all the messages up to the bound, in order, and leaves the
cursor there. -/
theorem syncLoop_complete {Good : σ → Prop}
    (hserve : ∀ world local_, Good world → bounds.minSeq ≤ local_ + 1 → local_ < bounds.maxSeq →
      ∃ page world', api world (roundQuery bounds local_) = (.ok page, world') ∧ Good world' ∧
        aborted world' = false ∧ ∃ k : ℕ, 0 < k ∧ local_ + k ≤ bounds.maxSeq ∧
          page.messages = (Int.range (local_ + 1) (local_ + 1 + k)).map msg)
    (local_ : Int) (hmin : bounds.minSeq ≤ local_ + 1) (hmax : local_ ≤ bounds.maxSeq) (world : σ)
    (hgood : Good world) :
    let out := syncLoop api aborted bounds local_ world
    out.result = .ok () ∧
      out.commits.flatMap (·.1) = (Int.range (local_ + 1) (bounds.maxSeq + 1)).map msg ∧
      (out.commits.map (·.2)).getLastD local_ = bounds.maxSeq ∧ Good out.world := by
  -- induction on how far the cursor is from the bound
  induction hn : (bounds.maxSeq - local_).toNat using Nat.strong_induction_on
    generalizing local_ world with
  | _ n ih =>
    by_cases hlt : local_ < bounds.maxSeq
    · obtain ⟨page, world', hapi, hgood', habort, k, hk, hle, hpage⟩ :=
        hserve world local_ hgood hmin hlt
      have hcheck := checkPage_of_range hmsg local_ k hle
      have hne : page.messages ≠ [] := by
        rw [hpage, range_eq_cons (by omega)]
        simp
      rw [← hpage] at hcheck
      obtain ⟨hok, hcommits, hlast, hgood''⟩ :=
        ih _ (by omega) (local_ + k) (by omega) hle world' hgood' rfl
      rw [syncLoop_round hlt hapi habort hne hcheck]
      refine ⟨hok, ?_, ?_, hgood''⟩
      · rw [flatMap_cons, hcommits, hpage, ← map_append,
          show local_ + k + 1 = local_ + 1 + k by omega, ← range_append (by omega) (by omega)]
      · rw [map_cons, getLastD_cons]
        exact hlast
    · obtain rfl : local_ = bounds.maxSeq := by omega
      rw [syncLoop_done hlt, range_eq_nil (by omega)]
      exact ⟨rfl, rfl, rfl, hgood⟩

end

end Loop

end Nexo.Client
