import Nexo.Client.Web
import Nexo.Lib.Machine

/-!
# The web client among its requests

The methods of `ImClient` as processes of one thread: a round of `syncOnce`, a `fetchHistory`, a
send and a receipt are suspended at their requests, and anything may happen before one of them goes
on. A step is what the client does from one `await` to the next. After every `await` the session's
signal is looked at, and a process whose signal is aborted does nothing more.

The server enters as what its answers have in common (`Truthful`): messages are the ones it has
under their numbers, and the least visible number of a conversation never falls, so that bounds,
however old, start no higher than the visible range does now. With the state goes what the client
has merged from pushes and sync pages in this session, and what `merge` has trimmed.
-/

namespace Nexo.Web

open Machine Keyed
open Nexo.Client (Bounds checkPage)
open Nexo.Message (PullResult Ack)

/-- The messages of the server, by conversation and number. -/
structure Server where
  message : String → Int → Dto.Message
  conversationId_message : ∀ id seq, (message id seq).conversationId = id
  seq_message : ∀ id seq, (message id seq).seq = seq

attribute [simp] Server.conversationId_message Server.seq_message

/-- The message is the one the server has under its number. -/
def Server.Genuine (server : Server) (message : Dto.Message) : Prop :=
  message = server.message message.conversationId message.seq

instance (server : Server) (message : Dto.Message) : Decidable (server.Genuine message) :=
  inferInstanceAs (Decidable (_ = _))

/-! ### Processes -/

/-- What a round has when it starts to fetch messages. -/
structure Fetched where
  list : List Conversation
  bounds : List Bounds

/-- Where the task of `refresh` is suspended. -/
inductive Phase where
  | listing (found : List Conversation) (cursor : String)
  | bounding (found : List Conversation) (bounds : List Bounds) (cursor : String)
  /-- between two calls of `syncRange` -/
  | ranging (fetched : Fetched) (rest : List Bounds)
  | pulling (fetched : Fetched) (range : Bounds) (local_ : Int) (rest : List Bounds)
  | profiles (bounds : List Bounds) (missing : List String)
  | history (range : Bounds) (begin_ end_ : Int)
  /-- `syncOnce` has returned -/
  | returned
  /-- the task is over -/
  | settled

/-- A task of `refresh`. -/
structure Round where
  signal : ℕ
  phase : Phase
  /-- the conversations that lost messages between their bounds and their cursor, which is still to
  be brought in line -/
  behind : List String := []
  /-- the conversations that lost messages up to their cursor for want of bounds -/
  lost : List String := []

/-- A call of `fetchHistory` by `select` or `loadOlder`. -/
structure Fetch where
  signal : ℕ
  request : ℕ
  range : Bounds
  begin_ : Int
  end_ : Int
  done : Bool

/-- A call of `transmit`. -/
structure Transmit where
  signal : ℕ
  pending : PendingMessage
  done : Bool

/-- A request of `markRead`. -/
structure ReadRequest where
  signal : ℕ
  conversationId : String
  readSeq : Int
  /-- the cursor when it was sent -/
  cursor : Int
  done : Bool

structure State where
  client : ImClient
  rounds : List Round := []
  fetches : List Fetch := []
  transmits : List Transmit := []
  reads : List ReadRequest := []
  /-- the visible range of each conversation on the server -/
  minSeq : String → Int
  maxSeq : String → Int
  /-- what pushes and sync pages have brought, newest first -/
  merged : List Dto.Message := []
  /-- what `merge` has trimmed -/
  trimmed : List (String × Int) := []

/-- What the `await` of a round yields. -/
inductive Response where
  | conversations (items : List Conversation) (nextCursor : String) (hasMore : Bool)
  | bounds (items : List Bounds) (nextCursor : String) (hasMore : Bool)
  | messages (page : PullResult)
  | users (ids : List String)
  /-- the request threw -/
  | failed
  /-- the promise is one of the client's own -/
  | resumed

inductive Event where
  | start
  | stop
  | refresh
  /-- a frame 2001 -/
  | push (message : Dto.Message)
  /-- a frame 2003 -/
  | readFrame (id : String) (seq : Int)
  | resume (i : ℕ) (response : Response)
  /-- the `finally` of `refresh` -/
  | finish (i : ℕ)
  | select (id : String)
  | openDirect (target : Target)
  | back
  | loadOlder
  | fetched (i : ℕ) (page : Option PullResult)
  | send (clientMsgId text : String) (sendTime : Int)
  | retry (clientMsgId : String)
  | sent (i : ℕ) (ack : Option Ack)
  | markRead (id : String) (seq : Int)
  | marked (i : ℕ) (readSeq : Option Int)
  /-- the visible range of a conversation changes on the server -/
  | visible (id : String) (minSeq maxSeq : Int)

namespace State

variable (server : Server) (stringify : String → String) (σ : State)

/-- What the server's answers have in common. -/
def Truthful : Response → Prop
  | .bounds items _ _ => ∀ item ∈ items, item.minSeq ≤ σ.minSeq item.conversationId
  | .messages page => ∀ message ∈ page.messages, server.Genuine message
  | _ => True

instance : ∀ response, Decidable (σ.Truthful server response)
  | .bounds items _ _ =>
    inferInstanceAs (Decidable (∀ item ∈ items, item.minSeq ≤ σ.minSeq item.conversationId))
  | .messages page => inferInstanceAs (Decidable (∀ message ∈ page.messages, server.Genuine message))
  | .conversations .. | .users _ | .failed | .resumed => .isTrue trivial

/-! ### Merging -/

/-- What `merge` trims. -/
def overflowing (id : String) (batch : List Dto.Message) : List (String × Int) :=
  if batch.isEmpty then []
  else ((σ.client.mergedMessages id batch).take (σ.client.overflow id batch)).map fun message ↦
    (id, message.seq)

def merge (id : String) (batch : List Dto.Message) : State :=
  { σ with
    client := σ.client.merge id batch
    trimmed := σ.overflowing id batch ++ σ.trimmed }

/-- `commit` -/
def commit (id : String) (batch : List Dto.Message) (local_ : Int) : State :=
  { σ with
    client := σ.client.commit id batch local_
    trimmed := σ.overflowing id batch ++ σ.trimmed
    merged := batch ++ σ.merged }

/-! ### A round -/

/-- Round `i` goes on to a phase. -/
def enter (i : ℕ) (round : Round) (phase : Phase) : State :=
  { σ with rounds := σ.rounds.set i { round with phase } }

/-- The end of `syncOnce`. -/
def askHistory (i : ℕ) (round : Round) (bounds : List Bounds) : State :=
  match σ.client.active.bind fun active ↦ ImClient.rangeOf bounds active.conversationId with
  | none => σ.enter i round .returned
  | some range =>
    if (σ.client.messagesOf range.conversationId).isEmpty then
      match ImClient.historyBegin range range.maxSeq with
      | none => σ.enter i round .returned
      | some begin_ => σ.enter i round (.history range begin_ range.maxSeq)
    else σ.enter i round .returned

/-- The requests of `/user/info`, a hundred ids each. -/
def askProfiles (i : ℕ) (round : Round) (bounds : List Bounds) (missing : List String) : State :=
  if missing.isEmpty then σ.askHistory i round bounds
  else σ.enter i round (.profiles bounds missing)

/-- The loop over the bounds, from its head to the next `await`. -/
def nextRange (i : ℕ) (round : Round) (fetched : Fetched) : List Bounds → State
  | [] => σ.askProfiles i round fetched.bounds (σ.client.missing fetched.list)
  | range :: rest =>
    let local_ := σ.client.startLocal range
    let round := { round with behind := round.behind.filter (· ≠ range.conversationId) }
    (σ.commit range.conversationId [] local_).enter i round <|
      if local_ < range.maxSeq then .pulling fetched range local_ rest else .ranging fetched rest

/-- The round after the last page of bounds, before the first range. -/
def prunedRound (round : Round) (found : List Conversation) (bounds : List Bounds) : Round :=
  { round with
    phase := .ranging ⟨found.map (σ.client.syncedRow bounds), bounds⟩ bounds
    behind := σ.client.ahead bounds
    lost := σ.client.unbounded bounds ++ round.lost }

def pruned (i : ℕ) (round : Round) (found : List Conversation) (bounds : List Bounds) : State :=
  { σ with
    client := σ.client.prune found bounds
    rounds := σ.rounds.set i (σ.prunedRound round found bounds) }

/-- What follows the last page of bounds. -/
def prune (i : ℕ) (round : Round) (found : List Conversation) (bounds : List Bounds) : State :=
  (σ.pruned i round found bounds).nextRange i (σ.prunedRound round found bounds)
    ⟨found.map (σ.client.syncedRow bounds), bounds⟩ bounds

/-- A page of `syncRange`. -/
def pulled (i : ℕ) (round : Round) (fetched : Fetched) (range : Bounds) (local_ : Int)
    (rest : List Bounds) (page : PullResult) : State :=
  if page.messages.isEmpty then σ.enter i round .settled
  else
    match checkPage range local_ page.messages with
    | .error _ => σ.enter i round .settled
    | .ok next =>
      (σ.commit range.conversationId page.messages next).enter i round <|
        if next < range.maxSeq then .pulling fetched range next rest else .ranging fetched rest

/-- From one `await` of a round to the next. -/
def resume (i : ℕ) (round : Round) (response : Response) : Option State :=
  if round.signal ∈ σ.client.aborted then
    match round.phase with
    | .settled => none
    | _ => some (σ.enter i round .settled)
  else
    match round.phase, response with
    | .listing found cursor, .conversations items nextCursor hasMore =>
      let found := items.foldl (fun found item ↦ setKey (·.conversationId) item found) found
      some <| σ.enter i round <|
        if !hasMore then .bounding found [] ""
        else if nextCursor = "" ∨ nextCursor = cursor then .settled
        else .listing found nextCursor
    | .bounding found bounds cursor, .bounds items nextCursor hasMore =>
      let bounds := items.foldl (fun bounds item ↦ setKey (·.conversationId) item bounds) bounds
      some <|
        if !hasMore then σ.prune i round found bounds
        else if nextCursor = "" ∨ nextCursor = cursor then σ.enter i round .settled
        else σ.enter i round (.bounding found bounds nextCursor)
    | .ranging fetched rest, .resumed => some (σ.nextRange i round fetched rest)
    | .pulling fetched range local_ rest, .messages page =>
      some (σ.pulled i round fetched range local_ rest page)
    | .profiles bounds missing, .users ids =>
      let client := { σ.client with profiles := ids ++ σ.client.profiles }
      some (askProfiles { σ with client } i round bounds (missing.drop 100))
    | .history range begin_ end_, .messages page =>
      let batch := σ.client.historyBatch range page
      some <| (σ.merge range.conversationId batch).enter i round <|
        match ImClient.historyNext begin_ end_ page with
        | .error () => .settled
        | .ok none => .returned
        | .ok (some begin_) => .history range begin_ end_
    | .returned, .resumed =>
      if σ.client.dirty then
        let client := { σ.client with dirty := false }
        some (enter { σ with client } i round (.listing [] ""))
      else some (σ.enter i round .settled)
    | .listing .., .failed | .bounding .., .failed | .pulling .., .failed | .profiles .., .failed
    | .history .., .failed => some (σ.enter i round .settled)
    | _, _ => none

/-! ### The other processes -/

/-- A call of `fetchHistory` outside a round, if it asks for anything. -/
def fetchHistory (range : Bounds) (end_ : Int) : State :=
  let client := { σ.client with
    historyRequest := σ.client.historyRequest + 1
    loadingHistory := true }
  match ImClient.historyBegin range end_ with
  | none => { σ with client := { client with loadingHistory := false } }
  | some begin_ =>
    { σ with
      client
      fetches := σ.fetches ++ [⟨client.controller, client.historyRequest, range, begin_, end_, false⟩] }

/-- A call of `fetchHistory` is over. -/
def endFetch (i : ℕ) (fetch : Fetch) : State :=
  { σ with
    client := { σ.client with
      loadingHistory := σ.client.loadingHistory && fetch.request ≠ σ.client.historyRequest }
    fetches := σ.fetches.set i { fetch with done := true } }

def fetched (i : ℕ) (fetch : Fetch) : Option PullResult → State
  | none => σ.endFetch i fetch
  | some page =>
    if fetch.signal ∈ σ.client.aborted then σ.endFetch i fetch
    else
      let batch := σ.client.historyBatch fetch.range page
      let σ := σ.merge fetch.range.conversationId batch
      match ImClient.historyNext fetch.begin_ fetch.end_ page with
      | .ok (some begin_) => { σ with fetches := σ.fetches.set i { fetch with begin_ } }
      | _ => σ.endFetch i fetch

def setStatus (clientMsgId : String) (status : PendingStatus) (pending : List PendingMessage) :
    List PendingMessage :=
  pending.map fun p ↦ if p.clientMsgId = clientMsgId then { p with status } else p

def endTransmit (i : ℕ) (transmit : Transmit) : State :=
  { σ with transmits := σ.transmits.set i { transmit with done := true } }

def sent (i : ℕ) (transmit : Transmit) (ack : Option Ack) : State :=
  if transmit.signal ∈ σ.client.aborted then σ.endTransmit i transmit
  else
    match ack with
    | none =>
      { σ.endTransmit i transmit with
        client := { σ.client with
          pending := setStatus transmit.pending.clientMsgId .failed σ.client.pending } }
    | some ack =>
      (σ.endTransmit i transmit).merge ack.conversationId
        [σ.client.ackMessage stringify transmit.pending ack]

/-- The answer to a receipt. -/
def answered (client : ImClient) (read : ReadRequest) : Option Int → ImClient
  | none => client
  | some seq =>
    if read.signal ∈ client.aborted then client else client.applyRead read.conversationId seq

/-- The `finally` of `markRead`. -/
def forgetRead (client : ImClient) (read : ReadRequest) : ImClient :=
  { client with
    readRequests :=
      if client.controller = read.signal ∧
          client.readRequests read.conversationId = some read.readSeq then
        Function.update client.readRequests read.conversationId none
      else client.readRequests }

def marked (i : ℕ) (read : ReadRequest) (readSeq : Option Int) : State :=
  { σ with
    client := forgetRead (answered σ.client read readSeq) read
    reads := σ.reads.set i { read with done := true } }

/-! ### Steps -/

/-- `ImClient.stop` -/
def stop : State :=
  { σ with
    client := { σ.client with
      running := false
      aborted := σ.client.controller :: σ.client.aborted
      readRequests := fun _ ↦ none
      refreshPromise := none
      historyRequest := σ.client.historyRequest + 1
      loadingHistory := false
      pending := σ.client.pending.map fun p ↦ { p with status := .failed } } }

/-- `ImClient.refresh` -/
def refresh : State :=
  if σ.client.running then
    if σ.client.refreshPromise.isSome then { σ with client := { σ.client with dirty := true } }
    else
      { σ with
        client := { σ.client with dirty := false, refreshPromise := some σ.rounds.length }
        rounds := σ.rounds ++ [⟨σ.client.controller, .listing [] "", [], []⟩] }
  else σ

/-- A frame 2001. -/
def push (message : Dto.Message) : State :=
  match σ.client.applyPush message with
  | .applied client =>
    { σ with
      client
      trimmed := σ.overflowing message.conversationId [message] ++ σ.trimmed
      merged := message :: σ.merged }
  | _ => σ

def next : Event → Option State
  | .start =>
    if σ.client.running then none
    else
      let client := { σ.client with running := true, controller := σ.client.controller + 1 }
      some { σ with client }
  | .stop => some σ.stop
  | .refresh => some σ.refresh
  | .push message =>
    if σ.client.running ∧ server.Genuine message then some (σ.push message) else none
  | .readFrame id seq =>
    if σ.client.running ∧ 0 ≤ seq then
      let client := σ.client.applyRead id seq
      some { σ with client }
    else none
  | .resume i response => do
    let round ← σ.rounds[i]?
    if σ.Truthful server response then σ.resume i round response else none
  | .finish i => do
    let round ← σ.rounds[i]?
    match round.phase with
    | .settled =>
      if σ.client.refreshPromise = some i then
        let client := { σ.client with refreshPromise := none }
        some { σ with client }
      else none
    | _ => none
  | .select id => do
    let conversation ← σ.client.conversation? id
    let active : Target :=
      ⟨conversation.conversationId, conversation.type, conversation.peerUserId, conversation.groupId⟩
    let client := { σ.client with active := some active }
    some (fetchHistory { σ with client } conversation.toMaxSeqItem conversation.maxSeq)
  | .openDirect target =>
    let client := { σ.client with
      active := some target
      historyRequest := σ.client.historyRequest + 1
      loadingHistory := false }
    some { σ with client }
  | .back =>
    let client := { σ.client with
      active := none
      historyRequest := σ.client.historyRequest + 1
      loadingHistory := false }
    some { σ with client }
  | .loadOlder => do
    let active ← σ.client.active
    let range ← σ.client.conversation? active.conversationId
    if σ.client.loadingHistory ∨
        σ.client.olderEnd active.conversationId range.toMaxSeqItem < range.minSeq then none
    else
      let client := { σ.client with
        expandedHistory := active.conversationId :: σ.client.expandedHistory }
      some (fetchHistory { σ with client } range.toMaxSeqItem
        (σ.client.olderEnd active.conversationId range.toMaxSeqItem))
  | .fetched i page => do
    let fetch ← σ.fetches[i]?
    if fetch.done then none else some (σ.fetched i fetch page)
  | .send clientMsgId text sendTime => do
    let target ← σ.client.active
    if text = "" ∨ 8192 < (stringify text).utf8ByteSize then none
    else
      let pending : PendingMessage := ⟨clientMsgId, target, text, sendTime, .sending⟩
      let client := { σ.client with pending := σ.client.pending ++ [pending] }
      some { σ with client, transmits := σ.transmits ++ [⟨client.controller, pending, false⟩] }
  | .retry clientMsgId => do
    let pending ← σ.client.pending.find? (·.clientMsgId = clientMsgId)
    if pending.status = .sending then none
    else
      let client := { σ.client with
        pending := setStatus clientMsgId .sending σ.client.pending }
      some { σ with client, transmits := σ.transmits ++ [⟨client.controller, pending, false⟩] }
  | .sent i ack => do
    let transmit ← σ.transmits[i]?
    if transmit.done then none else some (σ.sent stringify i transmit ack)
  | .markRead id seq => do
    let read ← σ.client.markRead id seq
    let client := { σ.client with
      readRequests := Function.update σ.client.readRequests id (some read) }
    some { σ with
      client
      reads := σ.reads ++ [⟨client.controller, id, read, σ.client.cursor id, false⟩] }
  | .marked i readSeq => do
    let read ← σ.reads[i]?
    if read.done then none else some (σ.marked i read readSeq)
  | .visible id minSeq maxSeq =>
    if σ.minSeq id ≤ minSeq then
      some { σ with
        minSeq := Function.update σ.minSeq id minSeq
        maxSeq := Function.update σ.maxSeq id maxSeq }
    else none

end State

/-! ### Sessions -/

/-- A session starts with the cursors of the last one. -/
structure Restored where
  userId : String
  cursors : String → Option Int
  /-- the constructor takes safe integers that are not negative -/
  nonneg : ∀ id cursor, cursors id = some cursor → 0 ≤ cursor
  minSeq : String → Int
  maxSeq : String → Int

def Restored.state (restored : Restored) : State where
  client := { userId := restored.userId, cursors := restored.cursors }
  minSeq := restored.minSeq
  maxSeq := restored.maxSeq

/-- `cursors[id] ?? 0` at the start of the session. -/
def Restored.cursor (restored : Restored) (id : String) : Int := (restored.cursors id).getD 0

/-- A session of the web client. -/
def webSystem (server : Server) (stringify : String → String) (restored : Restored) :
    System State Event :=
  .guarded restored.state fun σ e ↦ σ.next server stringify e

end Nexo.Web
