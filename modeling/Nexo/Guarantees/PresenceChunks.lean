import Nexo.Gateway.PresencePublish
import Nexo.Guarantees.PresenceEvents

/-!
# Presence announcements are lossless and within budget

What `publishOnlineChanged` hands to the bus is exactly the users it was called for, each once, and
every event keeps to `MaxPayloadBytes`, because a full chunk of the longest ids that
`identity.Valid` takes keeps to the bytes that are reserved for it. Before that, and in every case,
the node's own subscriptions of these users are marked, and no others.
-/

namespace Nexo.Gateway

open Machine Json Bus Identity List Presence

/-! ### Ids on the wire -/

theorem plainChar_of_idChar {c : Char} (h : IdChar c) : PlainChar c := by
  rcases h with h | rfl | rfl
  · have hrange := toNat_of_isAlphanum h
    refine ⟨by omega, by omega, ?_, ?_⟩
    · rintro rfl
      exact absurd hrange.1 (by decide)
    · rintro rfl
      exact hrange.2.2 rfl
  · decide
  · decide

/-- An id takes its length and two quotes. -/
theorem length_string_of_valid {uuidString : String → Option String} (huuid : CanonicalUuid uuidString)
    {id : String} (h : valid uuidString id) : (string id).length + 1 ≤ maxUserIdJsonBytes := by
  obtain ⟨hlen, hchars⟩ := of_valid huuid h
  rw [length_string fun c hc ↦ plainChar_of_idChar (hchars c hc), maxUserIdJsonBytes]
  omega

/-! ### Marks -/

namespace Presence

variable {L : Type} {p : Presence L} {c i : ℕ}

/-- Marking other clients leaves a subscription as it is. -/
theorem Sound.markAll_of_notMem {clients : List ℕ} (h : Sound p) (hi : p.active.lookup c = some i)
    (hc : c ∉ clients) (t : Int) :
    (clients.foldl (fun p c ↦ p.mark (p.active.lookup c) t) p).subs i = p.subs i ∧
      ((clients.foldl (fun p c ↦ p.mark (p.active.lookup c) t) p).due.Has i ↔ p.due.Has i) := by
  induction clients generalizing p with
  | nil => exact ⟨rfl, Iff.rfl⟩
  | cons c' clients ih =>
    obtain ⟨hne, hc⟩ := not_or.1 (mem_cons.not.1 hc)
    rw [foldl_cons]
    rcases hi' : p.active.lookup c' with - | i'
    · exact ih h hi hc
    · have hi₁ : (p.mark (some i') t).active.lookup c = some i := by
        rw [mark_frame h.heap]
        exact hi
      -- two clients have two subscriptions
      have hii : i ≠ i' := by
        rintro rfl
        have hclient := (h.current c i ((h.active c i).1 hi).1).2
        exact hne (hclient.symm.trans (h.current c' i ((h.active c' i).1 hi').1).2)
      obtain ⟨hsub, hhas⟩ := ih (h.mark hi' t) hi₁ hc
      obtain ⟨hsub', hhas'⟩ := mark_of_ne h.heap hii t
      exact ⟨hsub.trans hsub', hhas.trans hhas'⟩

/-- **Who is marked**: the subscriptions that watch one of the users, and no others. -/
theorem Sound.marks {visit : String → List ℕ} (h : Sound p)
    (hstopped : p.stopped = false) (hclosing : p.closing = false)
    (hvisit : ∀ id, Yields (watchers p.byUser id) (visit id)) (hi : p.active.lookup c = some i)
    (ids : List String) (t : Int) :
    ((∃ id ∈ ids, id ∈ (p.subs i).userIds) →
      Pending (p.markOnlineChanged (ids.map visit) t) c t [] i) ∧
    ((∀ id ∈ ids, id ∉ (p.subs i).userIds) →
      (p.markOnlineChanged (ids.map visit) t).subs i = p.subs i ∧
        ((p.markOnlineChanged (ids.map visit) t).due.Has i ↔ p.due.Has i)) := by
  -- a client is visited when it watches one of the users
  have hmem : c ∈ (ids.map visit).flatten ↔ ∃ id ∈ ids, id ∈ (p.subs i).userIds := by
    have hwatch : ∀ id, c ∈ visit id ↔ id ∈ (p.subs i).userIds := by
      intro id
      rw [← mem_toFinset, (hvisit id).2, h.watched]
      constructor
      · rintro ⟨j, hj, hid⟩
        obtain rfl : i = j := Option.some.inj (hi.symm.trans hj)
        exact hid
      · exact fun hid ↦ ⟨i, hi, hid⟩
    simp only [mem_flatten, mem_map, exists_exists_and_eq_and, hwatch]
  rw [Presence.markOnlineChanged, if_neg (by simp [hstopped, hclosing])]
  refine ⟨fun hwatch ↦ .of_markAll h hi (hmem.2 hwatch) t, fun hnone ↦ ?_⟩
  refine h.markAll_of_notMem hi (fun hc ↦ ?_) t
  obtain ⟨id, hid, hwatch⟩ := hmem.1 hc
  exact hnone id hid hwatch

end Presence

/-! ### The result -/

section Result

variable {L ι : Type} {env : OnlineEnv L} {frames : L} {s : PresenceRun L} {p : Presence L}
  {uuidString : String → Option String} {userIds : List String} {nodeId : Bytes}
  {answer : List Bus.Event → Bus.Event → Bool} {visit : String → List ℕ} {now : Int}

/-- No chunk is too long. -/
theorem length_chunk_le (huuid : CanonicalUuid uuidString)
    (hvalid : ∀ id ∈ userIds, valid uuidString id) {baseSize : ℕ}
    (hbase : baseSize ≤ presenceEnvelopeBudget) :
    ∀ chunk ∈ presenceChunks (sortCompact userIds),
      baseSize + (presenceChanged chunk).length ≤ maxPayloadBytes := by
  intro chunk hchunk
  have hids : ∀ id ∈ chunk, (string id).length + 1 ≤ maxUserIdJsonBytes := by
    intro id hid
    have hmem : id ∈ sortCompact userIds := by
      rw [← Chunks.flatten_chunks (presenceChunkSize - 1) (sortCompact userIds)]
      exact mem_flatten.2 ⟨chunk, hchunk, hid⟩
    exact length_string_of_valid huuid (hvalid id (mem_sortCompact.1 hmem))
  have hchunkLen : (presenceChanged chunk).length ≤ presenceChunkJsonBytes :=
    length_presenceChanged_le (Chunks.length_of_mem_chunks hchunk).2 hids
  have hbudget : presenceEnvelopeBudget + presenceChunkJsonBytes = maxPayloadBytes := by decide
  omega

/-- With room for the envelope every chunk is attempted. -/
theorem publishOnlineChanged_of_fits (huuid : CanonicalUuid uuidString) (hne : userIds ≠ [])
    (hvalid : ∀ id ∈ userIds, valid uuidString id) {envelope : Bytes}
    (hmarshal : (presenceEvent nodeId []).marshal = some envelope)
    (hfits : envelope.length - (presenceChanged []).length ≤ presenceEnvelopeBudget) :
    publishOnlineChanged p visit now nodeId (some answer) userIds =
      { sched := p.markOnlineChanged ((sortCompact userIds).map visit) now
        events := (presenceChunks (sortCompact userIds)).map (presenceEvent nodeId)
        failures := refusals answer []
          ((presenceChunks (sortCompact userIds)).map (presenceEvent nodeId)) } := by
  rw [publishOnlineChanged, if_neg hne]
  simp only [hmarshal]
  rw [if_neg (Nat.not_lt.2 hfits), Announcement.publish_foldl (length_chunk_le huuid hvalid hfits)]
  simp

/-- Without it nothing is, and one failure is counted. -/
theorem publishOnlineChanged_of_not_fits (hne : userIds ≠ []) (h : ¬ EnvelopeFits nodeId) :
    publishOnlineChanged p visit now nodeId (some answer) userIds =
      { sched := p.markOnlineChanged ((sortCompact userIds).map visit) now, failures := 1 } := by
  rw [publishOnlineChanged, if_neg hne]
  rcases hmarshal : (presenceEvent nodeId []).marshal with - | envelope
  · rfl
  · have hlong : ¬ envelope.length - (presenceChanged []).length ≤ presenceEnvelopeBudget :=
      fun hle ↦ h ⟨envelope, hmarshal, hle⟩
    dsimp only
    rw [if_pos (Nat.lt_of_not_le hlong)]
    rfl

/-- The node still takes marks: neither its dispatcher has stopped nor has the shutdown begun. -/
def Presence.IsOpen {L : Type} (p : Presence L) : Prop := p.stopped = false ∧ p.closing = false

/-- **Presence chunking is lossless and within budget.** For every reachable scheduler, every
non-empty list of valid ids, every node id and every behaviour of the bus: if the empty envelope
fits its budget, then the events are those of chunks of at most `presenceChunkSize` ids each, which
make up the sorted ids without duplicates; every event can be marshalled and keeps to
`MaxPayloadBytes`, and a failure is counted for each that the bus refuses. Otherwise nothing is
published and one failure is counted. In both cases an open node marks the subscriptions that watch
one of the users and no others, and a node that is not open any more leaves them all as they are. -/
theorem presence_chunks (now : Int) (nodeId : Bytes) (answer : List Bus.Event → Bus.Event → Bool)
    (h : (presence ι env frames).Reachable s) (huuid : CanonicalUuid uuidString)
    (hne : userIds ≠ []) (hvalid : ∀ id ∈ userIds, valid uuidString id)
    (hvisit : ∀ id, Yields (Presence.watchers s.sched.byUser id) (visit id)) :
    let out := publishOnlineChanged s.sched visit now nodeId (some answer) userIds
    (EnvelopeFits nodeId → ∃ chunks : List (List String),
      out.events = chunks.map (presenceEvent nodeId) ∧
      chunks.flatten = Presence.sortCompact userIds ∧
      (∀ chunk ∈ chunks, chunk ≠ [] ∧ chunk.length ≤ presenceChunkSize) ∧
      (∀ ev ∈ out.events, ∃ raw, ev.marshal = some raw ∧ raw.length ≤ maxPayloadBytes) ∧
      out.failures = refusals answer [] out.events) ∧
    (¬ EnvelopeFits nodeId → out.events = [] ∧ out.failures = 1) ∧
    ((Presence.sortCompact userIds).Pairwise (· < ·) ∧
      ∀ id, id ∈ Presence.sortCompact userIds ↔ id ∈ userIds) ∧
    (s.sched.IsOpen → ∀ c i, s.sched.active.lookup c = some i →
        ((∃ id ∈ userIds, id ∈ (s.sched.subs i).userIds) →
          out.sched.due.Has i ∧
              (out.sched.subs i).readyAt ≤ max now (out.sched.subs i).nextAttempt ∨
            (out.sched.subs i).cancel = true ∧ (out.sched.subs i).remark = true) ∧
        ((∀ id ∈ userIds, id ∉ (s.sched.subs i).userIds) →
          out.sched.subs i = s.sched.subs i ∧ (out.sched.due.Has i ↔ s.sched.due.Has i))) ∧
    (¬ s.sched.IsOpen → out.sched = s.sched) := by
  intro out
  have hsound := Presence.sound h
  have hsched : out.sched =
      s.sched.markOnlineChanged ((Presence.sortCompact userIds).map visit) now := by
    by_cases hfits : EnvelopeFits nodeId
    · obtain ⟨envelope, hmarshal, hle⟩ := hfits
      exact congrArg Announcement.sched
        (publishOnlineChanged_of_fits huuid hne hvalid hmarshal hle)
    · exact congrArg Announcement.sched (publishOnlineChanged_of_not_fits hne hfits)
  refine ⟨?_, fun hfits ↦ ?_,
    ⟨Presence.pairwise_sortCompact userIds, fun _ ↦ Presence.mem_sortCompact⟩,
    fun ⟨hstopped, hclosing⟩ c i hi ↦ ?_, fun hclosed ↦ ?_⟩
  · rintro ⟨envelope, hmarshal, hle⟩
    have hout : out = _ := publishOnlineChanged_of_fits huuid hne hvalid hmarshal hle
    refine ⟨presenceChunks (Presence.sortCompact userIds), ?_, Chunks.flatten_chunks _ _,
      fun chunk hchunk ↦ Chunks.length_of_mem_chunks hchunk, fun ev hev ↦ ?_, ?_⟩
    · rw [hout]
    · rw [hout] at hev
      obtain ⟨chunk, hchunk, rfl⟩ := List.mem_map.1 hev
      obtain ⟨raw, hraw, hlen⟩ := length_presenceEvent hmarshal chunk
      exact ⟨raw, hraw, hlen ▸ length_chunk_le huuid hvalid hle chunk hchunk⟩
    · rw [hout]
  · have hout : out = _ := publishOnlineChanged_of_not_fits hne hfits
    rw [hout]
    exact ⟨rfl, rfl⟩
  · have hmarks := hsound.marks hstopped hclosing hvisit hi (Presence.sortCompact userIds) now
    simp only [Presence.mem_sortCompact] at hmarks
    rw [hsched]
    refine ⟨fun hwatch ↦ ?_, hmarks.2⟩
    have hpending := hmarks.1 hwatch
    refine hpending.placed ?_
    rw [(hsound.nudge_markOnlineChanged _ now i).1.core]
    exact ((hsound.active c i).1 hi).2
  · rw [hsched, Presence.markOnlineChanged, if_pos]
    by_contra hopen
    simp only [not_or, Bool.not_eq_true] at hopen
    exact hclosed hopen

end Result

/-! ### An announcement -/

namespace ChunksDemo

/-- `String` of a UUID that is spelt canonically, roughly. -/
def uuidString (s : String) : Option String :=
  if s.length = 36 ∧ s.toList.all (fun c ↦ c.isAlphanum || c == '-') then some s else none

theorem canonical : CanonicalUuid uuidString := by
  intro s t h
  unfold uuidString at h
  split_ifs at h with hs
  cases h
  refine ⟨hs.1, fun c hc ↦ ?_⟩
  simpa using all_eq_true.1 hs.2 c hc

/-- Connection 1 watches `u___1`. -/
def run : List (PresenceEvent Unit) := [.subscribe 1 { revision := 1, userIds := ["u___1"] } 10]

def visit (id : String) : List ℕ := if id = "u___1" then [1] else []

def userIds : List String := ["u___2", "u___1", "u___2"]

/-- What is looked at before the announcement. -/
def observe (s : PresenceRun Unit) :
    List (Sigma fun _ : String ↦ Finset ℕ) × Option ℕ × List String × Bool × Bool :=
  (s.sched.byUser.entries, s.sched.active.lookup 1, (s.sched.subs 0).userIds, s.sched.stopped,
    s.sched.closing)

end ChunksDemo

open PresenceDemo ChunksDemo in
/-- A node with the id `n` announces two users: one event with both, and the mark. -/
theorem presence_chunks_demo : ∃ s : PresenceRun Unit,
    System.replay (PresenceRun.next openNode) { sched := .new () } run = some s ∧
    let out := publishOnlineChanged s.sched visit 20 [0x6e] (some fun _ _ ↦ true) userIds
    (∃ chunks : List (List String), out.events = chunks.map (presenceEvent [0x6e]) ∧
      chunks.flatten = ["u___1", "u___2"]) ∧
    (out.sched.due.Has 0 ∨ (out.sched.subs 0).remark = true) := by
  have hrun : (System.replay (PresenceRun.next openNode) { sched := .new () } run).map observe =
      some ([⟨"u___1", {1}⟩], some 0, ["u___1"], false, false) := by decide +kernel
  obtain ⟨s, hs, hobserve⟩ := Option.map_eq_some_iff.1 hrun
  simp only [observe, Prod.mk.injEq] at hobserve
  obtain ⟨hentries, hactive, hids, hstopped, hclosing⟩ := hobserve
  have hreach : (presence Unit openNode ()).Reachable s := System.reachable_of_replay hs
  have hvalid : ∀ id ∈ userIds, valid uuidString id := by decide +kernel
  have hvisit : ∀ id, Yields (Presence.watchers s.sched.byUser id) (visit id) := by
    intro id
    by_cases hid : "u___1" = id
    · subst hid
      simp [Yields, Presence.watchers, AList.lookup, hentries, visit]
    · simp [Yields, Presence.watchers, AList.lookup, hentries, visit, Ne.symm hid]
  have hfits : EnvelopeFits [0x6e] :=
    ⟨_, Option.map_eq_some_iff.2 ⟨_, rfl, rfl⟩, by decide +kernel⟩
  refine ⟨s, hs, ?_⟩
  obtain ⟨hchunks, -, -, hmarks, -⟩ := presence_chunks 20 [0x6e] (fun _ _ ↦ true) hreach canonical
    (by decide) hvalid hvisit
  obtain ⟨chunks, hevents, hflatten, -⟩ := hchunks hfits
  refine ⟨⟨chunks, hevents, hflatten.trans (by decide +kernel)⟩, ?_⟩
  · have hmark := (hmarks ⟨hstopped, hclosing⟩ 1 0 hactive).1
      ⟨"u___1", by decide, hids ▸ List.mem_singleton_self _⟩
    exact hmark.imp And.left And.right

end Nexo.Gateway
