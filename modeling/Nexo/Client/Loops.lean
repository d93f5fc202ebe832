import Nexo.Client.Web
import Nexo.Lib.Binary64

/-!
# The client's loops in JavaScript's arithmetic

`syncRange` of `web/src/client/sync.ts` and `ImClient.fetchHistory` as JavaScript runs them: numbers
are doubles, so that every sum and difference is rounded (`Binary64.nearest`). `Nexo.Client.Sync`
has the same `syncRange` over exact integers, and `ImClient.historyNext` the same step of
`fetchHistory`; what they agree on is a matter of size.

Both loops run against a server of which nothing is assumed: `api` answers a query and leaves the
world, and in `fetchHistory` the client too, as others have changed them meanwhile. Where a number
stops growing the loops need not end, so that each has a bound on its requests; `none` is a run that
makes more.
-/

namespace Nexo.Web.Double

open Client Message Binary64

variable {σ : Type}

/-! ### `syncRange` -/

/-- The loop over the messages of a page. -/
def checkPage (bounds : Bounds) : Int → List Dto.Message → Except Thrown Int
  | next, [] => .ok next
  | next, message :: messages =>
    if message.conversationId ≠ bounds.conversationId ∨ message.seq ≠ nearest (next + 1) ∨
        message.seq > bounds.maxSeq then
      .error notContiguous
    else checkPage bounds message.seq messages

section Sync

variable (api : σ → PullQuery → Except Err PullResult × σ) (aborted : σ → Bool) (bounds : Bounds)

/-- The query of one round. -/
def roundQuery (local_ : Int) : PullQuery where
  conversationId := bounds.conversationId
  beginSeq := nearest (local_ + 1)
  endSeq := bounds.maxSeq
  limit := 100

/-- The `while` loop of `syncRange`. -/
def syncLoop (fuel : ℕ) (local_ : Int) (world : σ) : Option (Outcome σ) :=
  if local_ < bounds.maxSeq then
    match fuel with
    | 0 => none
    | fuel + 1 =>
      match api world (roundQuery bounds local_) with
      | (.error err, world) => some ⟨[], .error (.request err), world⟩
      | (.ok page, world) =>
        if aborted world then some ⟨[], .error .aborted, world⟩
        else if page.messages = [] then some ⟨[], .error visibleRangeChanged, world⟩
        else
          match checkPage bounds local_ page.messages with
          | .error thrown => some ⟨[], .error thrown, world⟩
          | .ok next =>
            (syncLoop fuel next world).map fun rest ↦
              { rest with commits := (page.messages, next) :: rest.commits }
  else some ⟨[], .ok (), world⟩

/-- The initial clamp of `syncRange`. -/
def start (cursor : Int) : Int := min (max cursor (nearest (bounds.minSeq - 1))) bounds.maxSeq

/-- `syncRange` -/
def syncRange (fuel : ℕ) (cursor : Int) (world : σ) : Option (Outcome σ) :=
  (syncLoop api aborted bounds fuel (start bounds cursor) world).map fun rest ↦
    { rest with commits := ([], start bounds cursor) :: rest.commits }

end Sync

/-! ### `fetchHistory` -/

def historyNotAdvanced : Thrown := .error "历史消息分页没有前进"

/-- What a run of `fetchHistory` leaves behind: whether it threw, the client and the world. -/
structure HistoryOutcome (σ : Type) where
  result : Except Thrown Unit
  client : ImClient
  world : σ

/-- Where `fetchHistory` goes on after a page: at a number, not at all, or it throws. -/
def historyNext (begin_ end_ : Int) (page : PullResult) : Except Unit (Option Int) :=
  if page.hasMore then
    match page.messages.getLast? with
    | none => .error ()
    | some last =>
      if last.seq < begin_ then .error ()
      else .ok (if nearest (last.seq + 1) ≤ end_ then some (nearest (last.seq + 1)) else none)
  else .ok none

section History

variable (api : ImClient × σ → PullQuery → Except Err PullResult × ImClient × σ)
  (aborted : ImClient × σ → Bool) (range : Bounds)

/-- The query of one round. -/
def historyQuery (begin_ end_ : Int) : PullQuery where
  conversationId := range.conversationId
  beginSeq := begin_
  endSeq := end_
  limit := 100

/-- The `while` loop of `fetchHistory`, entered with `begin_ ≤ end_`. -/
def historyLoop (end_ : Int) : ℕ → Int → ImClient → σ → Option (HistoryOutcome σ)
  | 0, _, _, _ => none
  | fuel + 1, begin_, client, world =>
    match api (client, world) (historyQuery range begin_ end_) with
    | (.error err, client, world) => some ⟨.error (.request err), client, world⟩
    | (.ok page, client, world) =>
      if aborted (client, world) then some ⟨.error .aborted, client, world⟩
      else
        let client := client.merge range.conversationId (client.historyBatch range page)
        match historyNext begin_ end_ page with
        | .error () => some ⟨.error historyNotAdvanced, client, world⟩
        | .ok none => some ⟨.ok (), client, world⟩
        | .ok (some next) => historyLoop end_ fuel next client world

/-- The first number that `fetchHistory` asks for. -/
def historyBegin (end_ : Int) : Int := max range.minSeq (nearest (end_ - 99))

/-- `ImClient.fetchHistory` -/
def fetchHistory (fuel : ℕ) (end_ : Int) (client : ImClient) (world : σ) : Option (HistoryOutcome σ) :=
  if end_ < range.minSeq ∨ end_ < 1 then some ⟨.ok (), client, world⟩
  else historyLoop api aborted range end_ fuel (historyBegin range end_) client world

end History

end Nexo.Web.Double
