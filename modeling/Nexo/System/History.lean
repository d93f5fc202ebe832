import Nexo.System.Protocol

/-!
# Valid histories

What follows from the specification alone, for any history made of allowed entries: every entry is
an action of the ledger or leaves the tables alone, so the tables of every moment satisfy the
invariant, and whatever one action preserves is preserved between any two moments. Together with it,
the facts about looking back that the proofs of the calls need.
-/

namespace Nexo

open Relational Message Errcode List

variable {cfg : Config} {users : Table User String User.keys} {pid : ℕ}

/-! ### Looking back from further on -/

section Back

variable {H H' : History cfg users}

theorem Started.mono {req : Request} (h : Started H pid req) (hs : H <:+ H') :
    Started H' pid req := by
  obtain ⟨d, hd⟩ := h
  exact ⟨d, hs.subset hd⟩

/-- The query just answered. -/
theorem SawAt.now {q : Query} {r : Except StoreErr q.Val} {d : Db} :
    SawAt (⟨some pid, .stmt (.query q) r, d⟩ :: H) pid q r H :=
  ⟨d, suffix_refl _⟩

theorem SawAt.mono {q : Query} {r : Except StoreErr q.Val} {H₀ : History cfg users}
    (h : SawAt H pid q r H₀) (hs : H <:+ H') : SawAt H' pid q r H₀ := by
  obtain ⟨d, hd⟩ := h
  exact ⟨d, hd.trans hs⟩

theorem SawAt.suffix {q : Query} {r : Except StoreErr q.Val} {H₀ : History cfg users}
    (h : SawAt H pid q r H₀) : H₀ <:+ H := by
  obtain ⟨d, hd⟩ := h
  exact (suffix_cons _ _).trans hd

theorem Committed.mono {a : Action} (h : Committed H pid a) (hs : H <:+ H') :
    Committed H' pid a := by
  obtain ⟨d, H₀, hd, hc⟩ := h
  exact ⟨d, H₀, hd.trans hs, hc⟩

theorem Found.mono {inp : SendInput} (h : Found H pid inp) (hs : H <:+ H') : Found H' pid inp := by
  intro hsingle
  obtain ⟨u, H₀, hu⟩ := h hsingle
  exact ⟨u, H₀, hu.mono hs⟩

theorem Drew.mono {id : String} (h : Drew H pid id) (hs : H <:+ H') : Drew H' pid id := by
  obtain ⟨d, hd⟩ := h
  exact ⟨d, hs.subset hd⟩

theorem FreshIds.of_suffix (h : FreshIds H') (hs : H <:+ H') : FreshIds H :=
  h.sublist (hs.sublist.filterMap drawn)

/-- In a list, an element is determined by its image when no image comes twice. -/
theorem eq_of_nodup_filterMap {α β : Type} {f : α → Option β} {l : List α}
    (h : (l.filterMap f).Nodup) {a b : α} (ha : a ∈ l) (hb : b ∈ l) {x : β} (hax : f a = some x)
    (hbx : f b = some x) : a = b := by
  induction l with
  | nil => cases ha
  | cons c l ih =>
    have htail : (l.filterMap f).Nodup := h.sublist ((sublist_cons_self c l).filterMap f)
    have hnot : f c = some x → ∀ y ∈ l, f y ≠ some x := by
      intro hc y hy hyx
      rw [filterMap_cons_some hc, nodup_cons] at h
      exact h.1 (mem_filterMap.2 ⟨y, hy, hyx⟩)
    rcases mem_cons.1 ha with rfl | ha' <;> rcases mem_cons.1 hb with hbc | hb'
    · exact hbc.symm
    · exact absurd hbx (hnot hax b hb')
    · exact absurd hax (hnot (hbc ▸ hbx) a ha')
    · exact ih htail ha' hb'

/-- Of two entries of one history, one is the other or comes after it. -/
theorem cons_suffix_cases {α : Type} {a b : α} {s t l : List α} (ha : a :: s <:+ l)
    (hb : b :: t <:+ l) : a :: s = b :: t ∨ a :: s <:+ t ∨ b :: t <:+ s := by
  rcases suffix_or_suffix_of_suffix ha hb with h | h
  · rcases suffix_cons_iff.1 h with h | h
    · exact .inl h
    · exact .inr (.inl h)
  · rcases suffix_cons_iff.1 h with h | h
    · exact .inl h.symm
    · exact .inr (.inr h)

/-- Fresh ids are drawn by one process each. -/
theorem FreshIds.drew_unique (h : FreshIds H) {p q : ℕ} {id : String} (hp : Drew H p id)
    (hq : Drew H q id) : p = q := by
  obtain ⟨d, hd⟩ := hp
  obtain ⟨d', hd'⟩ := hq
  have heq := congrArg Entry.who (eq_of_nodup_filterMap h hd hd' (x := id) rfl rfl)
  exact Option.some.inj heq

end Back

/-! ### Marks -/

section Marks

variable {H : History cfg users}

theorem marks_cons_other {e : Entry (system cfg users)} (h : e.who ≠ some pid) :
    marks pid (e :: H) = marks pid H := by
  simp [marks, h]

theorem marks_cons_self {ev : Event (system cfg users)} {d : Db} :
    marks pid (⟨some pid, ev, d⟩ :: H) = (mark ev).toList ++ marks pid H := by
  rcases h : mark ev <;> simp [marks, h]

theorem mark_of_quiet {ev : Event (system cfg users)} {d : Db} (h : Quiet H ev d) :
    mark ev = none := by
  cases h with
  | query | queryFailed | updateFailed => rfl
  | @question e he r => cases e <;> first | rfl | simp [Ext.isQuestion] at he

theorem marks_append {new : History cfg users} (h : ∀ e ∈ new, e.who ≠ some pid) :
    marks pid (new ++ H) = marks pid H := by
  induction new with
  | nil => rfl
  | cons e new ih =>
    rw [cons_append, marks_cons_other (h e (by simp)), ih fun e' he' ↦ h e' (by simp [he'])]

theorem marks_eq_nil (h : ∀ e ∈ H, e.who ≠ some pid) : marks pid H = [] := by
  refine filterMap_eq_nil_iff.2 fun e he ↦ ?_
  rw [if_neg (h e he)]

theorem mem_marks {k : Mark} :
    k ∈ marks pid H ↔ ∃ e ∈ H, e.who = some pid ∧ mark e.event = some k := by
  rw [marks, mem_filterMap]
  refine exists_congr fun e ↦ and_congr_right fun _ ↦ ?_
  split
  · next hwho => simp [hwho]
  · next hwho => simp [hwho]

/-- The marks of a process only grow. -/
theorem marks_suffix {H' : History cfg users} (hs : H <:+ H') : marks pid H <:+ marks pid H' := by
  obtain ⟨new, rfl⟩ := hs
  rw [marks, marks, filterMap_append]
  exact suffix_append _ _

theorem commit_mem_marks {a : Action} (h : Committed H pid a) : Mark.commit ∈ marks pid H := by
  obtain ⟨d, H₀, hs, -⟩ := h
  exact (marks_suffix hs).subset (by rw [marks_cons_self]; simp [mark])

end Marks

/-! ### Every entry is an action or none -/

section Actions

variable {H : History cfg users} {e : Entry (system cfg users)}

/-- **What one entry does to the tables**; a message is stored only by the commit of a send. -/
theorem Allowed.action (h : Allowed H e) :
    e.db = Trace.db H ∨ ∃ a, Change cfg (Trace.db H) a e.db ∧ ∀ inp m, a = .send inp m →
      ∃ pid inp₀, e.who = some pid ∧ e.event = .commit ∧ Started H pid (.send inp₀) ∧
        inp = inp₀.normalize ∧ Drew H pid m.serverMsgId ∧ Found H pid inp₀ := by
  obtain ⟨who, ev, d⟩ := e
  cases who with
  | none => exact .inr ⟨_, .outside h.2, by simp⟩
  | some pid =>
    rcases h with ⟨req, -, hd, -⟩ | ⟨req, hstart, hdoes⟩
    · exact .inl hd
    · cases hdoes with
      | quiet hq => exact .inl (by cases hq <;> rfl)
      | sendCommit _ hchange hid hto =>
        refine .inr ⟨_, hchange, ?_⟩
        rintro _ _ ⟨⟩
        exact ⟨pid, _, rfl, rfl, hstart, rfl, hid, hto⟩
      | memberCommit _ hreq hchange => exact .inr ⟨_, hchange, by cases hreq <;> simp⟩
      | readWrite _ _ _ hchange => exact .inr ⟨_, hchange, by simp⟩
      | optWrite => exact .inr ⟨_, .setOpt _ _, by simp⟩
      | _ => exact .inl rfl

theorem Allowed.change (h : Allowed H e) :
    e.db = Trace.db H ∨ ∃ a, Change cfg (Trace.db H) a e.db :=
  h.action.imp_right fun ⟨a, ha, _⟩ ↦ ⟨a, ha⟩

/-- **The invariant holds at every moment.** -/
theorem inv_of_valid (h : (spec cfg users).Valid H) : Inv cfg (Trace.db H) := by
  induction h with
  | nil => exact Inv.empty cfg users
  | cons _ he ih =>
    rcases Allowed.change he with heq | ⟨a, hchange⟩
    · rwa [Trace.db_cons, heq]
    · exact hchange.inv ih

/-- **What every action keeps holds at every moment.** -/
theorem holds_of_valid {P : Db → Prop} (hinit : P (Db.empty users))
    (hstep : ∀ {d a d'}, Inv cfg d → Change cfg d a d' → P d → P d')
    (h : (spec cfg users).Valid H) : P (Trace.db H) := by
  induction h with
  | nil => exact hinit
  | cons hv he ih =>
    rcases Allowed.change he with heq | ⟨a, hchange⟩
    · rwa [Trace.db_cons, heq]
    · exact hstep (inv_of_valid hv) hchange ih

/-- **What every action preserves is preserved between any two moments.** -/
theorem preserved {R : Db → Db → Prop} (hrefl : ∀ d, R d d)
    (htrans : ∀ {d d' d''}, R d d' → R d' d'' → R d d'')
    (hstep : ∀ {d a d'}, Inv cfg d → Change cfg d a d' → R d d') {H' : History cfg users}
    (h : (spec cfg users).Valid H') (hs : H <:+ H') : R (Trace.db H) (Trace.db H') := by
  obtain ⟨new, rfl⟩ := hs
  induction new with
  | nil => exact hrefl _
  | cons e new ih =>
    refine htrans (ih h.tail) ?_
    rcases Allowed.change h.head with heq | ⟨a, hchange⟩
    · rw [cons_append, Trace.db_cons, heq]
      exact hrefl _
    · exact hstep (inv_of_valid h.tail) hchange

variable {H' : History cfg users}

/-- Every entry moves every view by one transition, and every counter by at most one. -/
theorem viewStep_of_valid (h : (spec cfg users).Valid (e :: H)) (o c : String) :
    ViewStep ((Trace.db H).maxSeq c) (e.db.maxSeq c) ((Trace.db H).Active o c) (e.db.Active o c)
      ((Trace.db H).view o c) (e.db.view o c) ∧
    (e.db.maxSeq c = (Trace.db H).maxSeq c ∨ e.db.maxSeq c = (Trace.db H).maxSeq c + 1) := by
  rcases Allowed.change h.head with heq | ⟨a, hchange⟩
  · rw [heq]
    exact ⟨.same (Int.le_refl _) Iff.rfl, .inl rfl⟩
  · refine ⟨hchange.viewStep (inv_of_valid h.tail) o c, ?_⟩
    rcases hchange.messages with ⟨inp, m, -, -, hseq, -, -, hmax⟩ | ⟨-, hmax⟩
    · rw [hmax c]
      split
      · next hc => exact .inr (by rw [hc, hseq])
      · exact .inl rfl
    · exact .inl (hmax c)

theorem messages_persist (h : (spec cfg users).Valid H') (hs : H <:+ H') {i : MessageIndex}
    {m : Message} (hm : (Trace.db H).messages.get i = some m) :
    (Trace.db H').messages.get i = some m :=
  preserved (R := fun d d' ↦ d.messages.get i = some m → d'.messages.get i = some m)
    (fun _ h ↦ h) (fun h h' hm ↦ h' (h hm)) (fun _ hc hm ↦ hc.messages_persist hm) h hs hm

theorem StoredFor.later {inp : SendInput} {m : Message} (hm : StoredFor (Trace.db H) inp m)
    (h : (spec cfg users).Valid H') (hs : H <:+ H') : StoredFor (Trace.db H') inp m :=
  messages_persist h hs hm

theorem maxSeq_mono (h : (spec cfg users).Valid H') (hs : H <:+ H') (c : String) :
    (Trace.db H).maxSeq c ≤ (Trace.db H').maxSeq c :=
  preserved (R := fun d d' ↦ d.maxSeq c ≤ d'.maxSeq c) (fun _ ↦ Int.le_refl _)
    (fun h h' ↦ h.trans h') (fun hinv hc ↦ (hc.viewStep hinv "" c).le) h hs

/-- **What a user may see never shrinks**, whatever happens in between. -/
theorem visibleMax_mono (h : (spec cfg users).Valid H') (hs : H <:+ H') (o c : String) :
    (Trace.db H).visibleMax o c ≤ (Trace.db H').visibleMax o c :=
  preserved (R := fun d d' ↦ d.visibleMax o c ≤ d'.visibleMax o c) (fun _ ↦ Int.le_refl _)
    (fun h h' ↦ h.trans h')
    (fun hinv hc ↦ (hc.viewStep hinv o c).viewMax_mono (hinv.views o c)) h hs

/-- The group is known, up to its status. -/
def KnownGroup (H : History cfg users) (id : String) (g : Group) : Prop :=
  ∃ s, (Trace.db H).groups.get id = some { g with status := s }

theorem KnownGroup.later {id : String} {g : Group} (hg : KnownGroup H id g)
    (h : (spec cfg users).Valid H') (hs : H <:+ H') : KnownGroup H' id g :=
  preserved (R := fun d d' ↦ (∃ s, d.groups.get id = some { g with status := s }) →
      ∃ s, d'.groups.get id = some { g with status := s })
    (fun _ h ↦ h) (fun h h' hg ↦ h' (h hg))
    (fun _ hc ⟨_, hg⟩ ↦ (hc.groups_persist hg :)) h hs hg

theorem KnownGroup.id_eq {id : String} {g : Group} (hg : KnownGroup H id g) : g.id = id := by
  obtain ⟨s, hs⟩ := hg
  exact (groupId_eq_of_get hs :)

end Actions

/-! ### Reads are truthful, ids are drawn -/

section Facts

variable {H : History cfg users}

/-- A read returned what the tables held at that moment, or failed. -/
theorem SawAt.result {q : Query} {r : Except StoreErr q.Val} {H₀ : History cfg users}
    (h : SawAt H pid q r H₀) (hv : (spec cfg users).Valid H) :
    r = q.exec (Trace.db H₀) ∨ r = .error .failed := by
  obtain ⟨d, hs⟩ := h
  rcases (hv.of_suffix hs).head with ⟨req, hev, -⟩ | ⟨req, -, hdoes⟩
  · cases hev
  · cases hdoes with
    | quiet hq =>
      cases hq with
      | query => exact .inl rfl
      | queryFailed => exact .inr rfl

theorem view_of_mem {d : Db} {uc : UserConversation} (h : uc ∈ d.userConversations.rows) :
    d.view uc.ownerId uc.conversationId = some uc :=
  Table.get_eq_some_iff.2 ⟨h, mem_singleton.2 rfl⟩

/-- What `GetUserConversationRow` found is the view with the conversation's counter. -/
theorem view_of_row {d : Db} {o c : String} {row : UserConversationRow}
    (h : d.userConversationRow o c = some row) :
    d.view o c = some row.toUserConversation ∧ d.maxSeq c = row.convMaxSeq := by
  obtain ⟨uc, huc, hrow⟩ := Option.bind_eq_some_iff.1 h
  obtain ⟨cv, hcv, rfl⟩ := Option.map_eq_some_iff.1 hrow
  exact ⟨huc, by rw [Db.maxSeq, hcv]; rfl⟩

theorem visibleMax_of_row {d : Db} {o c : String} {row : UserConversationRow}
    (h : d.userConversationRow o c = some row) :
    d.visibleMax o c = Conv.visibleMax row.toUserConversation row.convMaxSeq := by
  obtain ⟨huc, hmax⟩ := view_of_row h
  rw [Db.visibleMax, huc, hmax]
  rfl

theorem SawAt.row {o c : String} {row : UserConversationRow} {H₀ : History cfg users}
    (h : SawAt H pid (.getUserConversationRow o c) (.ok row) H₀) (hv : (spec cfg users).Valid H) :
    (Trace.db H₀).userConversationRow o c = some row := by
  rcases h.result hv with hr | hr
  · exact one_eq_ok.1 hr.symm
  · cases hr

section

variable (hv : (spec cfg users).Valid H)
include hv

/-- **A stored message was committed by a send**, under an id it drew and to a receiver it found. -/
theorem exists_sent {m : Message}
    (hm : m ∈ (Trace.db H).messages.rows) :
    ∃ p inp, Started H p (.send inp) ∧ Committed H p (.send inp.normalize m) ∧
      Drew H p m.serverMsgId ∧ Found H p inp := by
  induction hv with
  | nil => cases hm
  | @cons H e hv he ih =>
    have hs : H <:+ e :: H := suffix_cons e H
    by_cases hold : m ∈ (Trace.db H).messages.rows
    · obtain ⟨p, inp, hstart, hp, hid, hto⟩ := ih hold
      exact ⟨p, inp, hstart.mono hs, hp.mono hs, hid.mono hs, hto.mono hs⟩
    -- the message is new, so this entry is the commit of a send
    · rw [Trace.db_cons] at hm
      rcases Allowed.action he with heq | ⟨a, hchange, hsend⟩
      · exact absurd (heq ▸ hm) hold
      · rcases hchange.messages with ⟨inp, m', rfl, -, -, hfree, heq, -⟩ | ⟨heq, -⟩
        · rw [heq, Table.mem_insert_of_free hfree] at hm
          obtain rfl := hm.resolve_left hold
          obtain ⟨p, inp₀, hwho, hev, hstart, rfl, hid, hto⟩ := hsend inp m rfl
          obtain ⟨who, ev, d⟩ := e
          obtain rfl : who = some p := hwho
          obtain rfl : ev = .commit := hev
          exact ⟨p, inp₀, hstart.mono hs, ⟨d, H, suffix_refl _, hchange⟩, hid.mono hs, hto.mono hs⟩
        · exact absurd (heq ▸ hm) hold

theorem exists_committed {m : Message}
    (hm : m ∈ (Trace.db H).messages.rows) :
    ∃ p inp, Committed H p (.send inp m) ∧ Drew H p m.serverMsgId := by
  obtain ⟨p, inp, -, hp, hid, -⟩ := exists_sent hv hm
  exact ⟨p, inp.normalize, hp, hid⟩

/-- Under fresh ids, a process that has committed nothing finds its own id unused. -/
theorem server_free (hfresh : FreshIds H) {id : String}
    (hdrew : Drew H pid id) (hmarks : marks pid H = []) :
    (Trace.db H).messages.get (.server id) = none := by
  rcases hm : (Trace.db H).messages.get (.server id) with - | m
  · rfl
  · obtain ⟨p, inp, hp, hid⟩ := exists_committed hv (Table.mem_of_get hm)
    rw [serverKey_eq_of_get hm] at hid
    have hk := commit_mem_marks hp
    rw [hfresh.drew_unique hid hdrew, hmarks] at hk
    cases hk

end

end Facts

/-- **The ids of senders do not contain the separator** of conversation ids. `Send` does not check
it: it is called with the id the request was authenticated for, and those are valid ids
(`Identity.colon_notMem_of_valid`). -/
def PlainSenders (H : History cfg users) : Prop :=
  ∀ pid inp, Started H pid (.send inp) → ':' ∉ inp.senderId.toList

theorem PlainSenders.of_suffix {H H' : History cfg users} (h : PlainSenders H') (hs : H <:+ H') :
    PlainSenders H :=
  fun pid inp hstart ↦ h pid inp (hstart.mono hs)

/-- The sender, if the entry starts a send. -/
def startedSender (e : Entry (system cfg users)) : Option String :=
  match e.event with
  | .start (.send inp) => some inp.senderId
  | _ => none

/-- A test of `PlainSenders`, for histories that are given. -/
theorem plainSenders_of_all {H : History cfg users}
    (h : ((H.filterMap startedSender).all fun s ↦ ':' ∉ s.toList) = true) : PlainSenders H := by
  rintro pid inp ⟨d, hd⟩
  have hmem : inp.senderId ∈ H.filterMap startedSender := mem_filterMap.2 ⟨_, hd, rfl⟩
  exact of_decide_eq_true (all_eq_true.1 h _ hmem)

end Nexo
