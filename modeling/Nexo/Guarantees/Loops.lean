import Nexo.Client.Loops

/-!
# The client's loops against any server

Nothing is assumed of what the server answers, nor of what else happens while an answer is awaited.
As long as the numbers that the loops count to are safe integers, both loops end (`paging_loops`): a
round of `syncRange` moves the cursor by at least one (`passed_of_checkPage`), a round of
`fetchHistory` moves the beginning by at least one (`historyNext_progress`). `counted` and
`recorded` are servers that keep a record of what they are asked: the number of requests, and the
clients before and after each one.

From `2 ^ 53` on adding one does not change a double any more. A server that keeps repeating that
message then keeps both loops running (`loops_run_on`).
-/

namespace Nexo.Web

open Client Message List Binary64

variable {σ : Type}

/-! ### `syncRange` -/

/-- The server, with a counter of the requests. -/
def counted (api : σ → PullQuery → Except Err PullResult × σ) :
    σ × ℕ → PullQuery → Except Err PullResult × σ × ℕ :=
  fun world query ↦ ((api world.1 query).1, (api world.1 query).2, world.2 + 1)

/-- Every commit continues the one before it: it has the messages of the conversation that follow
the cursor, at least one, and leaves the cursor at the last, which is not above the bound. -/
def Continues (bounds : Bounds) : Int → List (List Dto.Message × Int) → Prop
  | _, [] => True
  | local_, (messages, next) :: commits =>
    local_ < next ∧ next ≤ bounds.maxSeq ∧
      (∀ message ∈ messages, message.conversationId = bounds.conversationId) ∧
      messages.map (·.seq) = Int.range (local_ + 1) (next + 1) ∧ Continues bounds next commits

/-- The requests of a run that made `commits` commits: one for each, and one more if it threw. -/
def requests (commits : ℕ) : Except Thrown Unit → ℕ
  | .ok _ => commits
  | .error _ => commits + 1

theorem requests_cons {α : Type} (commit : α) (commits : List α) (result : Except Thrown Unit) :
    requests (commit :: commits).length result = requests commits.length result + 1 := by
  cases result <;> rfl

/-- **Below `2 ^ 53` a page is checked as with exact numbers.** -/
theorem checkPage_double {bounds : Bounds} (hmax : Safe bounds.maxSeq) {next : Int}
    (hlow : -2 ^ 53 ≤ next) (hle : next ≤ bounds.maxSeq) (messages : List Dto.Message) :
    Double.checkPage bounds next messages = checkPage bounds next messages := by
  induction messages generalizing next with
  | nil => rfl
  | cons message messages ih =>
    obtain ⟨-, hmax'⟩ := hmax
    rw [Double.checkPage, checkPage, nearest_of_le (by omega) (by omega)]
    split_ifs with hbad
    · rfl
    · simp only [not_or, not_not, not_lt] at hbad
      exact ih (by omega) hbad.2.2

section Sync

variable (api : σ → PullQuery → Except Err PullResult × σ) (aborted : σ → Bool)

/-- **A round throws, or commits** a page that passes the check. -/
theorem syncLoop_cases {bounds : Bounds} {local_ : Int} (hlt : local_ < bounds.maxSeq) (world : σ) :
    let world' := (api world (Double.roundQuery bounds local_)).2
    (∃ thrown, ∀ fuel, Double.syncLoop api aborted bounds (fuel + 1) local_ world =
      some ⟨[], .error thrown, world'⟩) ∨
    ∃ messages next, messages ≠ [] ∧ Double.checkPage bounds local_ messages = .ok next ∧
      ∀ fuel, Double.syncLoop api aborted bounds (fuel + 1) local_ world =
        (Double.syncLoop api aborted bounds fuel next world').map fun rest ↦
          { rest with commits := (messages, next) :: rest.commits } := by
  simp only [Double.syncLoop, if_pos hlt]
  rcases api world (Double.roundQuery bounds local_) with ⟨err | page, world'⟩
  · exact .inl ⟨_, fun _ ↦ rfl⟩
  · by_cases habort : aborted world' = true
    · exact .inl ⟨_, fun _ ↦ if_pos habort⟩
    · simp only [if_neg habort]
      by_cases hempty : page.messages = []
      · exact .inl ⟨_, fun _ ↦ if_pos hempty⟩
      · simp only [if_neg hempty]
        rcases hcheck : Double.checkPage bounds local_ page.messages with thrown | next
        · exact .inl ⟨thrown, fun _ ↦ rfl⟩
        · exact .inr ⟨page.messages, next, hempty, hcheck, fun _ ↦ rfl⟩

/-- **The loop of `syncRange`.** -/
theorem syncLoop_any {bounds : Bounds} (hsafe : Safe bounds.maxSeq) {local_ : Int}
    (hlow : -2 ^ 53 ≤ local_) (hle : local_ ≤ bounds.maxSeq) (world : σ) (n : ℕ) :
    ∃ out, (∀ fuel, (bounds.maxSeq - local_).toNat ≤ fuel →
        Double.syncLoop (counted api) (fun world ↦ aborted world.1) bounds fuel local_ (world, n) = some out) ∧
      Continues bounds local_ out.commits ∧
      out.world.2 = n + requests out.commits.length out.result ∧
      requests out.commits.length out.result ≤ (bounds.maxSeq - local_).toNat ∧
      (out.result = .ok () → (out.commits.map (·.2)).getLastD local_ = bounds.maxSeq) := by
  -- induction on how far the cursor is from the bound
  induction hn : (bounds.maxSeq - local_).toNat using Nat.strong_induction_on
    generalizing local_ world n with
  | _ k ih =>
    by_cases hlt : local_ < bounds.maxSeq
    · rcases syncLoop_cases (counted api) (fun world ↦ aborted world.1) hlt (world, n) with
        ⟨thrown, hthrow⟩ | ⟨messages, next, hne, hcheck, hround⟩
      · refine ⟨⟨[], .error thrown, (api world (Double.roundQuery bounds local_)).2, n + 1⟩,
          fun fuel hfuel ↦ ?_, trivial, rfl, ?_, nofun⟩
        · obtain ⟨fuel, rfl⟩ := Nat.exists_eq_add_one.2 (show 0 < fuel by omega)
          exact hthrow fuel
        · simp only [requests, length_nil]
          omega
      · rw [checkPage_double hsafe hlow hle] at hcheck
        have hlen := length_pos_iff.2 hne
        have hpassed := passed_of_checkPage hcheck
        have hnext := hpassed.length
        have hmax := hpassed.le hle
        obtain ⟨out, hout, hcontinues, hcount, hbound, hlast⟩ :=
          ih (bounds.maxSeq - next).toNat (by omega) (by omega) hmax
            (api world (Double.roundQuery bounds local_)).2 (n + 1) rfl
        refine ⟨{ out with commits := (messages, next) :: out.commits }, fun fuel hfuel ↦ ?_,
          ⟨by omega, hmax, hpassed.conv, hpassed.seqs, hcontinues⟩, ?_, ?_, fun hok ↦ ?_⟩
        · obtain ⟨fuel, rfl⟩ := Nat.exists_eq_add_one.2 (show 0 < fuel by omega)
          rw [hround fuel]
          exact Option.map_eq_some_iff.2 ⟨out, hout fuel (by omega), rfl⟩
        · rw [requests_cons]
          exact hcount.trans (Nat.add_right_comm _ _ _)
        · rw [requests_cons]
          exact (Nat.succ_le_succ hbound).trans (by omega)
        · rw [map_cons, getLastD_cons]
          exact hlast hok
    · obtain rfl : local_ = bounds.maxSeq := by omega
      refine ⟨⟨[], .ok (), (world, n)⟩, fun fuel _ ↦ ?_, trivial, rfl, Nat.zero_le _, fun _ ↦ rfl⟩
      rw [Double.syncLoop.eq_def, if_neg hlt]

end Sync

/-! ### `fetchHistory` -/

/-- The server, with a record of the requests: the client before each one, and when it is answered.
-/
def recorded (api : ImClient × σ → PullQuery → Except Err PullResult × ImClient × σ) :
    ImClient × σ × List (ImClient × ImClient) → PullQuery →
      Except Err PullResult × ImClient × σ × List (ImClient × ImClient) :=
  fun state query ↦
    let answer := api (state.1, state.2.1) query
    (answer.1, answer.2.1, answer.2.2, (state.1, answer.2.1) :: state.2.2)

/-- The visible range of a conversation, as the client knows it; `range` if it has no row for it. -/
def currentRange (client : ImClient) (range : Bounds) : Bounds :=
  ((client.conversation? range.conversationId).map (·.toMaxSeqItem)).getD range

/-- **What a round of `fetchHistory` may do to the messages**: other conversations keep theirs, and
what is new in this one is of the conversation and inside the range that the client knows. -/
structure Adds (range : Bounds) (client client' : ImClient) : Prop where
  other : ∀ id ≠ range.conversationId, client'.messagesOf id = client.messagesOf id
  new : ∀ message ∈ client'.messagesOf range.conversationId,
    message ∈ client.messagesOf range.conversationId ∨
      message.conversationId = range.conversationId ∧
        (currentRange client range).minSeq ≤ message.seq ∧
        message.seq ≤ (currentRange client range).maxSeq

/-- A run that started with `client`, by its record, newest request first: between an answer and the
next request, or the end, the loop only adds. -/
def Merges (range : Bounds) (client : ImClient) : ImClient → List (ImClient × ImClient) → Prop
  | now, [] => now = client
  | now, (asked, answered) :: earlier => Adds range answered now ∧ Merges range client asked earlier

theorem Merges.append {range : Bounds} {client client' now : ImClient} {answered : ImClient}
    {record : List (ImClient × ImClient)} (h : Merges range client' now record)
    (hadds : Adds range answered client') :
    Merges range client now (record ++ [(client, answered)]) := by
  induction record generalizing now with
  | nil => exact ⟨(h : now = client') ▸ hadds, rfl⟩
  | cons entry record ih => exact ⟨h.1, ih h.2⟩

theorem Adds.refl (range : Bounds) (client : ImClient) : Adds range client client :=
  ⟨fun _ _ ↦ rfl, fun _ ↦ .inl⟩

theorem adds_merge (range : Bounds) (client : ImClient) (page : PullResult) :
    Adds range client (client.merge range.conversationId (client.historyBatch range page)) where
  other _ hne := ImClient.messagesOf_merge_of_ne hne
  new message hmem := by
    by_cases hnil : client.historyBatch range page = []
    · rw [hnil] at hmem
      exact .inl hmem
    · rw [ImClient.messagesOf_merge_self hnil] at hmem
      refine (mem_of_mem_mergeMessages (mem_of_mem_drop hmem)).imp_right fun hbatch ↦ ?_
      exact of_decide_eq_true (mem_filter.1 hbatch).2

/-- A page that has more moves the beginning by at least one, and not past the end. -/
theorem historyNext_progress {begin_ end_ next : Int} {page : PullResult} (hsafe : Safe end_)
    (hlow : -2 ^ 53 ≤ begin_) (h : Double.historyNext begin_ end_ page = .ok (some next)) :
    begin_ < next ∧ next ≤ end_ := by
  obtain ⟨-, hend⟩ := hsafe
  unfold Double.historyNext at h
  split at h
  · split at h
    · cases h
    next last _ =>
      split at h
      · cases h
      next hlast =>
        have hif := Except.ok.inj h
        split at hif
        next hle =>
          cases hif
          refine ⟨?_, hle⟩
          rcases le_or_gt (2 ^ 53) (last.seq + 1) with hbig | hsmall
          · have := le_nearest hbig
            omega
          · rw [nearest_of_le (by omega) hsmall.le]
            omega
        · cases hif
  · cases h

/-- **The loop of `fetchHistory`.** -/
theorem historyLoop_any (api : ImClient × σ → PullQuery → Except Err PullResult × ImClient × σ)
    (aborted : ImClient × σ → Bool) (range : Bounds) {end_ begin_ : Int} (hsafe : Safe end_)
    (hlow : -2 ^ 53 ≤ begin_) (hle : begin_ ≤ end_) (client : ImClient) (world : σ)
    (earlier : List (ImClient × ImClient)) :
    ∃ out record, (∀ fuel, (end_ - begin_ + 1).toNat ≤ fuel →
        Double.historyLoop (recorded api) (fun state ↦ aborted (state.1, state.2.1)) range end_ fuel begin_
          client (world, earlier) = some out) ∧
      out.world.2 = record ++ earlier ∧ record.length ≤ (end_ - begin_ + 1).toNat ∧
      Merges range client out.client record := by
  -- induction on how many numbers are left
  induction hn : (end_ - begin_ + 1).toNat using Nat.strong_induction_on
    generalizing begin_ client world earlier with
  | _ k ih =>
    -- a round that is the last one leaves one entry
    have hends (result : Except Thrown Unit) {client' now : ImClient} (world' : σ)
        (hadds : Adds range client' now)
        (hrun : ∀ fuel, Double.historyLoop (recorded api) (fun state ↦ aborted (state.1, state.2.1)) range
          end_ (fuel + 1) begin_ client (world, earlier) =
            some ⟨result, now, world', (client, client') :: earlier⟩) :
        ∃ out record, (∀ fuel, k ≤ fuel → Double.historyLoop (recorded api)
            (fun state ↦ aborted (state.1, state.2.1)) range end_ fuel begin_ client (world, earlier) =
              some out) ∧
          out.world.2 = record ++ earlier ∧ record.length ≤ k ∧ Merges range client out.client record := by
      refine ⟨⟨result, now, world', (client, client') :: earlier⟩, [(client, client')], fun fuel hfuel ↦ ?_,
        rfl, by simp only [length_singleton]; omega, hadds, rfl⟩
      obtain ⟨fuel, rfl⟩ := Nat.exists_eq_add_one.2 (show 0 < fuel by omega)
      exact hrun fuel
    rcases hcall : api (client, world) (Double.historyQuery range begin_ end_) with
      ⟨err | page, client', world'⟩
    · refine hends (.error (.request err)) world' (.refl range client') fun fuel ↦ ?_
      simp only [Double.historyLoop, recorded, hcall]
    · by_cases habort : aborted (client', world') = true
      · refine hends (.error .aborted) world' (.refl range client') fun fuel ↦ ?_
        simp only [Double.historyLoop, recorded, hcall, if_pos habort]
      · have hadds := adds_merge range client' page
        rcases hnext : Double.historyNext begin_ end_ page with ⟨⟩ | _ | next
        · refine hends (.error Double.historyNotAdvanced) world' hadds fun fuel ↦ ?_
          simp only [Double.historyLoop, recorded, hcall, if_neg habort, hnext]
        · refine hends (.ok ()) world' hadds fun fuel ↦ ?_
          simp only [Double.historyLoop, recorded, hcall, if_neg habort, hnext]
        · obtain ⟨hlt, hend⟩ := historyNext_progress hsafe hlow hnext
          obtain ⟨out, record, hout, hrecord, hlen, hmerges⟩ := ih (end_ - next + 1).toNat (by omega)
            (by omega) hend (client'.merge range.conversationId (client'.historyBatch range page)) world'
            ((client, client') :: earlier) rfl
          refine ⟨out, record ++ [(client, client')], fun fuel hfuel ↦ ?_, ?_, ?_, hmerges.append hadds⟩
          · obtain ⟨fuel, rfl⟩ := Nat.exists_eq_add_one.2 (show 0 < fuel by omega)
            simp only [Double.historyLoop, recorded, hcall, if_neg habort, hnext]
            exact hout fuel (by omega)
          · rw [hrecord, append_assoc]
            rfl
          · rw [length_append, length_singleton]
            omega

/-! ### The result -/

/-- **The loops of the client end, and take only what continues**, whatever the server answers, if
the bounds and the end of the history are safe integers. -/
theorem paging_loops (bounds : Bounds) (cursor end_ : Int) (world : σ) (client : ImClient)
    (hmin : Safe bounds.minSeq) (hmax : Safe bounds.maxSeq) (hend : Safe end_) :
    (∀ (api : σ → PullQuery → Except Err PullResult × σ) (aborted : σ → Bool),
      let start := min (max cursor (bounds.minSeq - 1)) bounds.maxSeq
      ∃ out commits, (∀ fuel, (bounds.maxSeq - start).toNat ≤ fuel →
          Double.syncRange (counted api) (fun world ↦ aborted world.1) bounds fuel cursor (world, 0) =
            some out) ∧
        out.commits = ([], start) :: commits ∧ Continues bounds start commits ∧
        out.world.2 = requests commits.length out.result ∧
        out.world.2 ≤ (bounds.maxSeq - start).toNat ∧
        (out.result = .ok () → (out.commits.map (·.2)).getLast? = some bounds.maxSeq)) ∧
    ∀ (api : ImClient × σ → PullQuery → Except Err PullResult × ImClient × σ)
      (aborted : ImClient × σ → Bool),
      let begin_ := max bounds.minSeq (end_ - 99)
      ∃ out, (∀ fuel, (end_ - begin_ + 1).toNat ≤ fuel →
          Double.fetchHistory (recorded api) (fun state ↦ aborted (state.1, state.2.1)) bounds fuel end_
            client (world, []) = some out) ∧
        out.world.2.length ≤ (end_ - begin_ + 1).toNat ∧
        Merges bounds client out.client out.world.2 := by
  refine ⟨fun api aborted ↦ ?_, fun api aborted ↦ ?_⟩
  · obtain ⟨hlow, hhigh⟩ := hmin
    have hmax' := hmax.1
    have hstart : Double.start bounds cursor = min (max cursor (bounds.minSeq - 1)) bounds.maxSeq := by
      rw [Double.start, nearest_of_le (by omega) (by omega)]
    have hlocal : -2 ^ 53 ≤ Double.start bounds cursor := by omega
    obtain ⟨out, hout, hcontinues, hcount, hbound, hlast⟩ :=
      syncLoop_any api aborted hmax hlocal (min_le_right _ _) world 0
    rw [Nat.zero_add] at hcount
    rw [← hstart]
    refine ⟨{ out with commits := ([], Double.start bounds cursor) :: out.commits }, _,
      fun fuel hfuel ↦ ?_, rfl, hcontinues, hcount, hcount.trans_le hbound, fun hok ↦ ?_⟩
    · exact Option.map_eq_some_iff.2 ⟨out, hout fuel hfuel, rfl⟩
    · rw [List.map_cons, List.getLast?_cons, ← List.getLastD_eq_getLast?]
      exact congrArg some (hlast hok)
  · by_cases hnone : end_ < bounds.minSeq ∨ end_ < 1
    · exact ⟨_, fun fuel _ ↦ if_pos hnone, Nat.zero_le _, rfl⟩
    · have hbegin : Double.historyBegin bounds end_ = max bounds.minSeq (end_ - 99) := by
        obtain ⟨-, hhigh⟩ := hend
        rw [Double.historyBegin, nearest_of_le (by omega) (by omega)]
      have hlow : -2 ^ 53 ≤ max bounds.minSeq (end_ - 99) := by omega
      obtain ⟨out, record, hout, hrecord, hlen, hmerges⟩ :=
        historyLoop_any api aborted bounds hend hlow (by omega) client world []
      rw [append_nil] at hrecord
      refine ⟨out, fun fuel hfuel ↦ ?_, hrecord ▸ hlen, hrecord ▸ hmerges⟩
      rw [Double.fetchHistory, if_neg hnone, hbegin]
      exact hout fuel hfuel

namespace LoopsDemo

def message (seq : Int) : Dto.Message := ⟨"", "", "c", seq, 1, "u1", "u2", "", 1, "", 0⟩

def bounds : Bounds := { conversationId := "c", minSeq := 1, maxSeq := 3, readSeq := 0 }

/-- A server that answers with one message at a time and always has more. -/
def api (world : Unit) (query : PullQuery) : Except Err PullResult × Unit :=
  (.ok ⟨[message query.beginSeq], true⟩, world)

/-- The same for the history, with a message of another conversation before it. -/
def history (state : ImClient × Unit) (query : PullQuery) : Except Err PullResult × ImClient × Unit :=
  (.ok ⟨[{ message query.beginSeq with conversationId := "d" }, message query.beginSeq], true⟩, state)

def client : ImClient := { userId := "u2" }

/-- The first number that is not safe. -/
def edge : Int := 2 ^ 53

/-- The bounds of a conversation that has come so far. -/
def far : Bounds := { conversationId := "c", minSeq := edge, maxSeq := edge + 2, readSeq := 0 }

/-- What is sent again and again. -/
def stuckPage : PullResult := ⟨[message edge], true⟩

end LoopsDemo

open LoopsDemo in
theorem paging_loops_demo :
    (∃ out, Double.syncRange (counted api) (fun _ ↦ false) bounds 3 0 ((), 0) = some out ∧
      out.commits.map (·.2) = [0, 1, 2, 3] ∧ out.world.2 ≤ 3) ∧
    ∃ out, Double.fetchHistory (recorded history) (fun _ ↦ false) bounds 3 3 client ((), []) = some out ∧
      (out.client.messagesOf "c").map (·.seq) = [1, 2, 3] ∧ Merges bounds client out.client out.world.2 := by
  have hsafe : Safe 1 ∧ Safe 3 := ⟨⟨by decide, by decide⟩, by decide, by decide⟩
  obtain ⟨hsync, hhistory⟩ := paging_loops bounds 0 3 () client hsafe.1 hsafe.2 hsafe.2
  obtain ⟨out, -, hout, -, -, -, hbound, -⟩ := hsync api fun _ ↦ false
  obtain ⟨out', hout', -, hmerges⟩ := hhistory history fun _ ↦ false
  have hrun := hout 3 (by decide)
  have hrun' := hout' 3 (by decide)
  have hcommits : (Double.syncRange (counted api) (fun _ ↦ false) bounds 3 0 ((), 0)).map
      (fun out ↦ out.commits.map (·.2)) = some [0, 1, 2, 3] := by decide +kernel
  have hseqs : (Double.fetchHistory (recorded history) (fun _ ↦ false) bounds 3 3 client ((), [])).map
      (fun out ↦ (out.client.messagesOf "c").map (·.seq)) = some [1, 2, 3] := by decide +kernel
  rw [hrun] at hcommits
  rw [hrun'] at hseqs
  exact ⟨⟨out, hrun, Option.some.inj hcommits, hbound⟩, out', hrun', Option.some.inj hseqs, hmerges⟩

open LoopsDemo in
/-- **Beyond the safe integers the loops run on**: a server that keeps sending message `2 ^ 53`
keeps both of them asking. -/
theorem loops_run_on :
    (¬ ∃ fuel out, Double.syncRange (fun (_ : Unit) _ ↦ (.ok stuckPage, ())) (fun _ ↦ false) far fuel edge () =
      some out) ∧
    ¬ ∃ fuel out, Double.fetchHistory (fun (state : ImClient × Unit) _ ↦ (.ok stuckPage, state))
      (fun _ ↦ false) far fuel edge client () = some out := by
  have hstart : Double.start far edge = edge := by decide +kernel
  have hbegin : Double.historyBegin far edge = edge := by decide +kernel
  -- adding one changes nothing
  have hsame : nearest (edge + 1) = edge := by decide +kernel
  have hcheck : Double.checkPage far edge stuckPage.messages = .ok edge := by
    simp [stuckPage, Double.checkPage, message, hsame, far]
  have hnext : Double.historyNext edge edge stuckPage = .ok (some edge) := by
    simp [stuckPage, Double.historyNext, message, hsame]
  refine ⟨fun ⟨fuel, out, h⟩ ↦ ?_, fun ⟨fuel, out, h⟩ ↦ ?_⟩
  · rw [Double.syncRange, hstart] at h
    obtain ⟨out', hloop, -⟩ := Option.map_eq_some_iff.1 h
    clear h
    induction fuel generalizing out' with
    | zero => cases hloop
    | succ fuel ih =>
      rw [Double.syncLoop, if_pos (by decide)] at hloop
      simp only [Bool.false_eq_true, if_false, hcheck] at hloop
      obtain ⟨out'', hloop, -⟩ := Option.map_eq_some_iff.1 hloop
      exact ih out'' hloop
  · rw [Double.fetchHistory, if_neg (by decide), hbegin] at h
    generalize client = c at h
    induction fuel generalizing c with
    | zero => cases h
    | succ fuel ih =>
      rw [Double.historyLoop] at h
      simp only [Bool.false_eq_true, if_false, hnext] at h
      exact ih _ h

end Nexo.Web
