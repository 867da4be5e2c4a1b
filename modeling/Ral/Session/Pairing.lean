import Ral.Session.Fork

/-! # Calls and their results

Every request a context makes pairs each message's calls with results for exactly those calls,
and opens with the user.
-/

namespace Ral.Session
open Ral.Record (Recorded Locus)

/-! ## What is sent -/

/-- A message of a request, the calls whose results its record awaits, and the call it
answers. -/
structure Sent where
  message : ChatMessage
  calls : List String
  answers : Option String

def sent : Transcript → List Sent
  | .assistantMessage _ message ids _ => [⟨message, ids, none⟩]
  | .toolResults results =>
    results.map fun r => ⟨.ofToolResponse ⟨r.id, r.content⟩, [], some r.id⟩
  | p => (chatMessages p).map fun message => ⟨message, [], none⟩

def sentAll (records : List (Recorded Transcript)) : List Sent :=
  records.flatMap fun r => sent r.value

theorem sent_messages (p : Transcript) : (sent p).map Sent.message = chatMessages p := by
  cases p <;> simp [sent, chatMessages]

theorem sentAll_messages (records : List (Recorded Transcript)) :
    (sentAll records).map Sent.message = residentMessages records := by
  simp only [sentAll, residentMessages, List.map_flatMap, sent_messages]

def Item.sent [Host] : Item → List Sent
  | .turn t => sentAll t.records
  | .eviction e => [⟨.user (Context.renderEviction e.1), [], none⟩]

def Context.sent [Host] (c : Context) : List Sent := c.table.frontier.flatMap Item.sent

theorem Context.sent_messages [Host] (c : Context) : c.sent.map Sent.message = c.rendered := by
  unfold Context.sent Context.rendered
  rw [List.map_flatMap]
  congr 1
  funext i
  cases i with
  | turn t => exact sentAll_messages t.records
  | eviction e => rfl

/-- Results for exactly these calls, in any order. -/
structure Answers (calls : List String) (results : List Sent) : Prop where
  exact : (results.map Sent.answers).Perm (calls.map some)
  call : ∀ r ∈ results, r.calls = []

/-- Every message is followed at once by results for exactly its calls, and no result stands
anywhere else. -/
inductive Paired : List Sent → Prop
  | nil : Paired []
  | message {m : Sent} {results rest : List Sent} (own : m.answers = none)
      (answered : Answers m.calls results) (paired : Paired rest) :
    Paired (m :: (results ++ rest))

theorem Answers.none : Answers [] [] := ⟨.nil, by simp⟩

theorem Paired.plain {m : Sent} {rest : List Sent} (calls : m.calls = []) (own : m.answers = none)
    (paired : Paired rest) : Paired (m :: rest) :=
  @Paired.message m [] rest own (calls ▸ .none) paired

theorem Paired.append {xs ys : List Sent} (hx : Paired xs) (hy : Paired ys) : Paired (xs ++ ys) := by
  induction hx with
  | nil => exact hy
  | @message m results rest own answered _ ih =>
    rw [List.cons_append, List.append_assoc]
    exact .message own answered ih

theorem Paired.flatMap {α : Type} {f : α → List Sent} {l : List α} (h : ∀ a ∈ l, Paired (f a)) :
    Paired (l.flatMap f) := by
  induction l with
  | nil => exact .nil
  | cons a l ih =>
    rw [List.flatMap_cons]
    exact (h a List.mem_cons_self).append (ih fun x hx => h x (List.mem_cons_of_mem _ hx))

/-! ## One turn's records -/

/-- Whether a turn's next record answers what is awaited, or comes when nothing is. -/
def fits (state : State) : Transcript → Bool
  | .userPrompt _ _ _ => state.admitsNewTurn
  | .steering _ _ => state.admitsNewTurn
  | .import _ _ => state.admitsNewTurn
  | .assistantMessage _ _ _ _ => state.admitsNewTurn
  | .toolResults results =>
    match state with
    | .awaitingToolResults pendingIds => (validateResultIds pendingIds results).isOk
    | _ => false
  | _ => false

def Fitted : State → List (Recorded Transcript) → Prop
  | _, [] => True
  | state, r :: records => fits state r.value ∧ Fitted (state.advance r.value) records

theorem fitted_append {state : State} {xs ys : List (Recorded Transcript)} :
    Fitted state (xs ++ ys) ↔ Fitted state xs ∧ Fitted (state.after xs) ys := by
  induction xs generalizing state with
  | nil => simp [Fitted, State.after]
  | cons x xs ih =>
    rw [List.cons_append, Fitted, Fitted, ih, and_assoc]
    rfl

theorem Fitted.cut {records : List (Recorded Transcript)} (h : Fitted .readyForUser records) :
    Fitted .readyForUser (cut records) := by
  rw [← List.take_append_drop (admissiblePrefix records) records, fitted_append] at h
  exact h.1

def Owed (state : State) (messages : List Sent) : Prop :=
  match state with
  | .awaitingToolResults ids =>
    ∃ results rest, messages = results ++ rest ∧ Answers ids results ∧ Paired rest
  | _ => Paired messages

theorem owed_of_admits {state : State} {messages : List Sent} (h : state.admitsNewTurn) :
    Owed state messages ↔ Paired messages := by
  cases state <;> simp [State.admitsNewTurn, Owed] at h ⊢

theorem answers_of_valid {ids : List String} {results : List ToolResult}
    (h : (validateResultIds ids results).isOk) : Answers ids (sent (.toolResults results)) := by
  constructor
  · have hperm := (validateResultIds_ok.mp h).2.map some
    simpa [sent, Function.comp_def] using hperm
  · simp [sent]

/-- What fits is owed nothing once it is closed. -/
theorem Fitted.owed {state : State} {records : List (Recorded Transcript)}
    (h : Fitted state records) (closed : (state.after records).admitsNewTurn) :
    Owed state (sentAll records) := by
  induction records generalizing state with
  | nil => exact (owed_of_admits closed).mpr .nil
  | cons r records ih =>
    obtain ⟨hfits, hrest⟩ := h
    have howed := ih hrest closed
    have hcons : sentAll (r :: records) = sent r.value ++ sentAll records := by simp [sentAll]
    rw [hcons]
    obtain ⟨locus, p⟩ := r
    cases p with
    | userPrompt turn text voice =>
      rw [owed_of_admits hfits]
      exact .plain rfl rfl howed
    | steering text voice =>
      rw [owed_of_admits hfits]
      exact .plain rfl rfl howed
    | «import» turn message =>
      rw [owed_of_admits hfits]
      exact .plain rfl rfl ((owed_of_admits hfits).mp howed)
    | assistantMessage turn message ids stopReason =>
      rw [owed_of_admits hfits]
      unfold State.advance at howed
      by_cases hids : ids = []
      · simp only [hids, if_true] at howed
        exact .plain hids rfl howed
      · simp only [hids, if_false] at howed
        obtain ⟨results, rest, hsplit, hanswers, hpaired⟩ := howed
        show Paired (⟨message, ids, none⟩ :: sentAll records)
        rw [hsplit]
        exact .message rfl hanswers hpaired
    | toolResults results =>
      cases state with
      | awaitingToolResults ids => exact ⟨_, _, rfl, answers_of_valid hfits, howed⟩
      | readyForUser => cases hfits
      | awaitingAssistantAfterUser => cases hfits
      | awaitingAssistantAfterToolResults => cases hfits
    | system => cases hfits
    | inherited => cases hfits
    | evicted => cases hfits
    | rewound => cases hfits
    | cleared => cases hfits

/-! ## The user's turns -/

/-- A record that opens a turn in the user's role. -/
inductive UserOpening : Transcript → Prop
  | prompt (id : ℕ) (text : String) (voice : Voice) : UserOpening (.userPrompt id text voice)
  | note (id : ℕ) {message : ChatMessage} (role : message.role = .user) :
    UserOpening (.import id message)

theorem UserOpening.messages {p : Transcript} (h : UserOpening p) :
    ∃ message, chatMessages p = [message] ∧ message.role = .user := by
  cases h with
  | prompt id text voice => exact ⟨.user text, rfl, rfl⟩
  | @note id message role => exact ⟨message, rfl, role⟩

/-- Records of a turn of `role`: each fits, and a user's turn opens with the user. -/
structure Shaped (role : Role) (records : List (Recorded Transcript)) : Prop where
  fitted : Fitted .readyForUser records
  opening : role = .user → ∃ r rest, records = r :: rest ∧ UserOpening r.value

theorem cut_cons {r : Recorded Transcript} {rest : List (Recorded Transcript)}
    (closed : (resting [r]).admitsNewTurn) : ∃ rest', cut (r :: rest) = r :: rest' := by
  induction rest using List.reverseRecOn with
  | nil => exact ⟨[], cut_of_closed closed⟩
  | append_singleton rest last ih =>
    rw [← List.cons_append, cut_concat]
    split
    · exact ⟨rest ++ [last], rfl⟩
    · exact ih

theorem Shaped.cut {role : Role} {records : List (Recorded Transcript)} (h : Shaped role records) :
    Shaped role (cut records) := by
  refine ⟨h.fitted.cut, ?_⟩
  intro hrole
  obtain ⟨r, rest, rfl, hopening⟩ := h.opening hrole
  have hclosed : (resting [r]).admitsNewTurn := by
    obtain ⟨locus, p⟩ := r
    cases hopening <;> rfl
  obtain ⟨rest', hcut⟩ := cut_cons hclosed
  exact ⟨r, rest', hcut, hopening⟩

theorem Shaped.concat {role : Role} {records : List (Recorded Transcript)} (h : Shaped role records)
    {r : Recorded Transcript} (fit : fits (resting records) r.value) :
    Shaped role (records ++ [r]) := by
  refine ⟨fitted_append.mpr ⟨h.fitted, fit, trivial⟩, ?_⟩
  intro hrole
  obtain ⟨first, rest, rfl, hopening⟩ := h.opening hrole
  exact ⟨first, rest ++ [r], rfl, hopening⟩

/-! ## Contexts -/

section Host
variable [Host]

/-- A resident turn's records are shaped as its role has it, those it wrote itself are among
`wrote`, and what it inherited reads back shaped too. -/
def Turn.Proper (wrote : Recorded Transcript → Prop) (t : Turn) : Prop :=
  match t.body with
  | .here records none => Shaped t.role records ∧ ∀ r ∈ records, wrote r
  | .here records (some origin) => Shaped t.role records ∧
    ∃ full, Table.readPointer origin = .ok full ∧ Shaped t.role full
  | .evicted _ _ => True
  | .withdrawn _ => True

theorem Turn.Proper.shaped {wrote : Recorded Transcript → Prop} {t : Turn} (h : t.Proper wrote)
    (resident : t.location = .resident) : Shaped t.role t.records := by
  obtain ⟨records, origin, hbody⟩ := Turn.here_of_resident resident
  unfold Turn.Proper at h
  unfold Turn.records
  cases origin <;> simp only [hbody] at h ⊢ <;> exact h.1

theorem Turn.Proper.depart {wrote : Recorded Transcript → Prop} {t : Turn} (h : t.Proper wrote)
    (source : AgentId) (under : Option Span) : (t.depart source under).Proper wrote := by
  cases t with
  | mk id role kind label bytes body => cases body <;> cases under <;> trivial

theorem Turn.Proper.reads {wrote : Recorded Transcript → Prop} {t : Turn} (h : t.Proper wrote)
    {source : AgentId} (held : ∀ r, wrote r → Host.record source r.locus = .ok (.transcript r.value))
    (resident : t.location = .resident) {full : List (Recorded Transcript)}
    (read : Table.readPointer (t.pointer source) = .ok full) : Shaped t.role full := by
  obtain ⟨records, origin, hbody⟩ := Turn.here_of_resident resident
  unfold Turn.Proper at h
  simp only [Turn.pointer, hbody] at read
  cases origin with
  | none =>
    simp only [hbody] at h
    have hsame := Turn.readPointer_of_held fun r hr => held r (h.2 r hr)
    have hfull : full = records := Except.ok.inj (read.symm.trans hsame)
    exact hfull ▸ h.1
  | some origin =>
    simp only [hbody] at h
    obtain ⟨full', hread, hshaped⟩ := h.2
    have hfull : full = full' := Except.ok.inj (read.symm.trans hread)
    exact hfull ▸ hshaped

end Host

def Table.UserAt (table : Table) (k : ℕ) : Prop :=
  (∃ t ∈ table.turns, t.location = .resident ∧ t.role = .user ∧ t.id = k) ∨
    ∃ e ∈ table.evictions, e.2 = .resident ∧ e.1.span.fst = k

namespace Context

/-- What holds of a context so that its requests are paired. -/
structure Proper [Host] (wrote : Recorded Transcript → Prop) (c : Context) : Prop where
  turns : ∀ t ∈ c.table.turns, t.Proper wrote
  waiting : c.state.admitsNewTurn = false →
    ∃ last, c.table.turns.getLast? = some last ∧ resting last.records = c.state
  led : ∀ t ∈ c.table.turns, t.location = .resident → t.role = .assistant →
    ∃ k, c.table.UserAt k ∧ k < t.id
  opened : c.state ≠ .readyForUser → ∃ k, c.table.UserAt k

theorem userAt_recorded {table : Table} (sound : table.ledger.Sound) {k : ℕ}
    (h : table.UserAt k) : k ∈ table.ledger.ids := by
  rcases h with ⟨t, ht, -, -, rfl⟩ | ⟨e, he, -, rfl⟩
  · rw [Table.ledger_ids]
    exact List.mem_map_of_mem ht
  · apply (sound.carried e.1.span _).1
    rw [Table.ledger_spans]
    exact List.mem_map_of_mem he

theorem userAt_depart {table : Table} {leaving : Span → Prop} [DecidablePred leaving]
    {under : Option Span} {k : ℕ} (h : table.UserAt k) :
    (table.depart leaving under).UserAt k ∨ ∃ span, leaving span ∧ span.fst = k := by
  rcases h with ⟨t, ht, hresident, hrole, rfl⟩ | ⟨e, he, hresident, rfl⟩
  · by_cases hleaving : leaving (.single t.id)
    · exact Or.inr ⟨_, hleaving, rfl⟩
    · left
      left
      refine ⟨t, List.mem_map.mpr ⟨t, ht, by simp [hleaving]⟩, hresident, hrole, rfl⟩
  · by_cases hleaving : leaving e.1.span
    · exact Or.inr ⟨_, hleaving, rfl⟩
    · left
      right
      refine ⟨e, List.mem_map.mpr ⟨e, he, by simp [hleaving]⟩, hresident, rfl⟩

theorem userAt_withdraw {table : Table} {lo k : ℕ} (h : table.UserAt k) (below : k < lo) :
    (table.withdraw lo).UserAt k := by
  rcases @userAt_depart table (fun span => lo ≤ span.fst) _ none k h with h | ⟨span, hle, rfl⟩
  · exact h
  · exact absurd hle (by omega)

theorem userAt_evict {table : Table} {e : Eviction} {k : ℕ} (h : table.UserAt k) :
    ∃ k', k' ≤ k ∧ (table.evict e).UserAt k' := by
  rcases @userAt_depart table (fun span => span ≤ e.span) _ (some e.span) k h with
    h | ⟨span, hle, rfl⟩
  · refine ⟨k, le_refl k, ?_⟩
    rcases h with h | ⟨e', he', hresident, hfst⟩
    · exact Or.inl h
    · exact Or.inr ⟨e', List.mem_append_left _ he', hresident, hfst⟩
  · exact ⟨e.span.fst, hle.1, Or.inr ⟨(e, .resident), List.mem_append_right _ (by simp), rfl, rfl⟩⟩

variable [Host] {wrote : Recorded Transcript → Prop}

/-- A note is the user's, and a link is a proper context's whose log reads back. -/
structure Lawful (p : Transcript) : Prop where
  note : ∀ id message, p = .import id message → message.role = .user
  link : ∀ turns evictions, p = .inherited turns evictions →
    ∃ (parent : Context) (wrote : Recorded Transcript → Prop), parent.linked = turns ∧
      parent.evictions = evictions ∧ parent.table.ledger.Sound ∧ parent.Proper wrote ∧
      ∀ r, wrote r → Host.record parent.table.source r.locus = .ok (.transcript r.value)

theorem Proper.installed {parent c : Context} (h : parent.Proper wrote)
    (sound : parent.table.ledger.Sound)
    (held : ∀ r, wrote r → Host.record parent.table.source r.locus = .ok (.transcript r.value))
    {seeds : List (List (Recorded Transcript))} {table : Table} {wrote' : Recorded Transcript → Prop}
    (read : readSeeds parent.linked = .ok seeds)
    (installed : c.table.install parent.linked parent.evictions seeds = some table)
    (rest : c.state = .readyForUser) : Proper wrote' { c with table := table, len := c.len + 1 } := by
  obtain ⟨turns, hturns, hrows⟩ := installTurns_of_read read
  have htable : table.turns = turns := by
    unfold Table.install at installed
    rw [hturns] at installed
    cases installed
    rfl
  have hevictions := installed_evictions sound installed
  unfold linked at hrows
  rw [List.forall₂_map_left_iff, ← htable] at hrows
  have huser : ∀ k, parent.table.UserAt k → table.UserAt k := by
    intro k hk
    rcases hk with ⟨t, ht, hresident, hrole, rfl⟩ | hk
    · obtain ⟨t', ht', hrow⟩ := Related.exists_right hrows ht
      exact Or.inl ⟨t', ht', hrow.location.trans hresident, hrow.role.trans hrole, hrow.id⟩
    · exact Or.inr (hevictions ▸ hk)
  constructor
  · intro t' ht'
    obtain ⟨t, ht, hrow⟩ := Related.exists_left hrows ht'
    have hbody := hrow.holds
    unfold Linked.Holds at hbody
    unfold Turn.Proper
    cases hl : t.location with
    | resident =>
      simp only [Turn.linked, hl] at hbody
      obtain ⟨full, hread, hb⟩ := hbody
      have hshaped := (h.turns t ht).reads held hl hread
      rw [hb, hrow.role]
      exact ⟨hshaped.cut, full, hread, hshaped⟩
    | evicted under =>
      simp only [Turn.linked, hl] at hbody
      rw [hbody]
      trivial
    | withdrawn =>
      simp only [Turn.linked, hl] at hbody
      rw [hbody]
      trivial
  · intro hwaiting
    rw [show ({ c with table := table, len := c.len + 1 } : Context).state = _ from rest] at hwaiting
    cases hwaiting
  · intro t' ht' hresident hrole
    obtain ⟨t, ht, hrow⟩ := Related.exists_left hrows ht'
    obtain ⟨k, hk, hbelow⟩ := h.led t ht (hrow.location.symm.trans hresident)
      (hrow.role.symm.trans hrole)
    exact ⟨k, huser k hk, by rw [hrow.id]; exact hbelow⟩
  · intro hstate
    exact absurd rest hstate

theorem proper_opened {r : Recorded Transcript} {id bytes : ℕ} {role : Role} {kind : TurnKind}
    {label : String} (opens : Opens r.value id role kind label) (lawful : Lawful r.value)
    (wrote_r : wrote r) : Turn.Proper wrote ⟨id, role, kind, label, bytes, .here [r] none⟩ := by
  obtain ⟨locus, p⟩ := r
  refine ⟨⟨?_, ?_⟩, ?_⟩
  · cases opens <;> exact ⟨rfl, trivial⟩
  · intro hrole
    cases opens with
    | prompt => exact ⟨_, [], rfl, .prompt _ _ _⟩
    | reply => cases hrole
    | note id message => exact ⟨_, [], rfl, .note id (lawful.note id message rfl)⟩
  · intro s hs
    rw [List.mem_singleton.mp hs]
    exact wrote_r

theorem depart_proper {table : Table} (h : ∀ t ∈ table.turns, t.Proper wrote)
    (leaving : Span → Prop) [DecidablePred leaving] (under : Option Span) :
    ∀ t ∈ (table.depart leaving under).turns, t.Proper wrote := by
  simp only [Table.depart, List.forall_mem_map]
  intro t ht
  split
  · exact (h t ht).depart _ under
  · exact h t ht

omit [Host] in
theorem mem_depart_resident {table : Table} {leaving : Span → Prop} [DecidablePred leaving]
    {under : Option Span} {t : Turn} (h : t ∈ (table.depart leaving under).turns)
    (resident : t.location = .resident) : t ∈ table.turns ∧ ¬ leaving (.single t.id) := by
  obtain ⟨u, hu, rfl⟩ := List.mem_map.mp h
  by_cases hleaving : leaving (.single u.id)
  · rw [if_pos hleaving, Turn.depart_location] at resident
    cases under <;> cases hl : u.location <;>
      simp [hl, Location.depart, Location.isResident] at resident
  · rw [if_neg hleaving]
    exact ⟨hu, hleaving⟩

theorem proper_evict {c : Context} {e : Eviction} (proper : c.Proper wrote) (rested : c.Rested)
    (evictable : Evictable c e.span) :
    Proper wrote { c with table := c.table.evict e, newestEdit := some c.len, len := c.len + 1 } := by
  constructor
  · exact depart_proper proper.turns (fun span => span ≤ e.span) (some e.span)
  · intro hwaiting
    obtain ⟨init, last, newest, resident, -⟩ := rested.waiting hwaiting
    obtain ⟨last', hlast', hrest⟩ := proper.waiting hwaiting
    have hsame : last = last' := by simpa [newest] using hlast'
    subst hsame
    have hspared := evictable.spared last.id (unclosed_of_waiting newest resident hwaiting)
    have hkept : ¬ Span.single last.id ≤ e.span := hspared
    exact ⟨last, by simp [Table.evict, Table.depart, newest, hkept], hrest⟩
  · intro t ht hresident hrole
    have hmem := (@mem_depart_resident c.table (fun span => span ≤ e.span) _ (some e.span) t ht
      hresident).1
    obtain ⟨k, hk, hbelow⟩ := proper.led t hmem hresident hrole
    obtain ⟨k', hle, hk'⟩ := userAt_evict (e := e) hk
    exact ⟨k', hk', by omega⟩
  · intro hstate
    obtain ⟨k, hk⟩ := proper.opened hstate
    obtain ⟨k', -, hk'⟩ := userAt_evict (e := e) hk
    exact ⟨k', hk'⟩

theorem proper_withdraw {c : Context} {lo : ℕ} (proper : c.Proper wrote) (rested : c.Rested)
    (ready : c.state.admitsNewTurn) :
    Proper wrote { c.withdraw lo with len := c.len + 1 } := by
  have hled : ∀ t ∈ (c.table.withdraw lo).turns, t.location = .resident → t.role = .assistant →
      ∃ k, (c.table.withdraw lo).UserAt k ∧ k < t.id := by
    intro t ht hresident hrole
    obtain ⟨hmem, hbelow⟩ := mem_depart_resident ht hresident
    obtain ⟨k, hk, hlt⟩ := proper.led t hmem hresident hrole
    have hlo : ¬ lo ≤ t.id := hbelow
    exact ⟨k, userAt_withdraw hk (by omega), hlt⟩
  constructor
  · exact depart_proper proper.turns (fun span => lo ≤ span.fst) none
  · intro hwaiting
    rw [show (Context.mk _ (c.withdraw lo).state _ _ _).state.admitsNewTurn = true from
      withdraw_ready rested ready lo] at hwaiting
    cases hwaiting
  · exact hled
  · intro hstate
    -- The automaton rests where the newest turn still in the context leaves it.
    cases hlast : ((c.table.withdraw lo).turns.filter Turn.isResident).getLast? with
    | none =>
      have hrest : (c.withdraw lo).state = .readyForUser := by simp [withdraw, hlast, resting, State.after]
      exact absurd hrest hstate
    | some t =>
      obtain ⟨ht, hresident⟩ := List.mem_filter.mp (List.mem_of_getLast? hlast)
      have hresident := Turn.isResident_eq.mp hresident
      cases hrole : t.role with
      | user => exact ⟨t.id, Or.inl ⟨t, ht, hresident, hrole, rfl⟩⟩
      | assistant =>
        obtain ⟨k, hk, -⟩ := hled t ht hresident hrole
        exact ⟨k, hk⟩

omit [Host] in
theorem userAt_opened {table : Table} {t : Turn} {k : ℕ} (h : table.UserAt k) :
    Table.UserAt { table with turns := table.turns ++ [t] } k := by
  rcases h with ⟨u, hu, hrest⟩ | h
  · exact Or.inl ⟨u, List.mem_append_left _ hu, hrest⟩
  · exact Or.inr h

theorem proper_opens {c : Context} {r : Recorded Transcript} {id bytes : ℕ} {role : Role}
    {kind : TurnKind} {label : String} (proper : c.Proper wrote) (sound : c.table.ledger.Sound)
    (opens : Opens r.value id role kind label) (legal : admissible c.state r.value)
    (fresh : ∀ reach, c.reach = some reach → reach < id) (lawful : Lawful r.value)
    (wrote_r : wrote r) :
    Proper wrote { c with
      table := { c.table with
        turns := c.table.turns ++ [⟨id, role, kind, label, bytes, .here [r] none⟩] }
      state := c.state.advance r.value
      len := c.len + 1 } := by
  constructor
  · intro t ht
    rcases List.mem_append.mp ht with ht | ht
    · exact proper.turns t ht
    · rw [List.mem_singleton.mp ht]
      exact proper_opened opens lawful wrote_r
  · intro hwaiting
    refine ⟨⟨id, role, kind, label, bytes, .here [r] none⟩, by simp, ?_⟩
    -- Of what opens a turn only a reply leaves results awaited.
    obtain ⟨locus, p⟩ := r
    cases opens with
    | prompt => cases hwaiting
    | reply => rfl
    | note =>
      have hready : c.state.admitsNewTurn = true := legal
      have hheld : c.state.admitsNewTurn = false := hwaiting
      rw [hready] at hheld
      cases hheld
  · intro t ht hresident hrole
    rcases List.mem_append.mp ht with ht | ht
    · obtain ⟨k, hk, hbelow⟩ := proper.led t ht hresident hrole
      exact ⟨k, userAt_opened hk, hbelow⟩
    · rw [List.mem_singleton.mp ht] at hrole ⊢
      obtain ⟨locus, p⟩ := r
      cases opens with
      | prompt => cases hrole
      | note _ message =>
        have huser : messageRole message = .user := by
          simp [messageRole, lawful.note id message rfl]
        rw [show messageRole message = .assistant from hrole] at huser
        cases huser
      | reply id message ids stopReason =>
        have hawaits : c.state ≠ .readyForUser := by
          intro hs
          simp [admissible, hs, State.awaitsAssistant] at legal
        obtain ⟨k, hk⟩ := proper.opened hawaits
        exact ⟨k, userAt_opened hk, lt_of_fresh sound.ordered fresh k (userAt_recorded sound hk)⟩
  · intro hstate
    obtain ⟨locus, p⟩ := r
    cases opens with
    | prompt => exact ⟨id, Or.inl ⟨_, List.mem_append_right _ (List.mem_singleton_self _), rfl, rfl, rfl⟩⟩
    | note =>
      obtain ⟨k, hk⟩ := proper.opened hstate
      exact ⟨k, userAt_opened hk⟩
    | reply id message ids stopReason =>
      have hawaits : c.state ≠ .readyForUser := by
        intro hs
        simp [admissible, hs, State.awaitsAssistant] at legal
      obtain ⟨k, hk⟩ := proper.opened hawaits
      exact ⟨k, userAt_opened hk⟩

theorem proper_extends {c : Context} {r : Recorded Transcript} {init : List Turn} {last : Turn}
    {records : List (Recorded Transcript)} {origin : Option Pointer} {bytes : ℕ}
    (proper : c.Proper wrote) (rested : c.Rested) (adds : Extends r.value)
    (legal : admissible c.state r.value) (newest : c.table.turns = init ++ [last])
    (here : last.body = .here records origin) (wrote_r : wrote r) :
    Proper wrote { c with
      table := { c.table with
        turns := init ++ [{ last with bytes := bytes, body := .here (records ++ [r]) origin }] }
      state := c.state.advance r.value
      len := c.len + 1 } := by
  have hlast : last ∈ c.table.turns := by simp [newest]
  have hresident : last.location = .resident := by simp [Turn.location, here]
  have hrecords : last.records = records := by simp [Turn.records, here]
  have hfits : fits (resting records) r.value := by
    obtain ⟨locus, p⟩ := r
    cases adds with
    | steering text voice =>
      have hclosed := rested.ready legal last hlast
      unfold Turn.Closed at hclosed
      rwa [hrecords] at hclosed
    | results results =>
      have hwaiting : c.state.admitsNewTurn = false := by
        cases hs : c.state <;> simp [admissible, hs] at legal
        rfl
      obtain ⟨last', hlast', hrest⟩ := proper.waiting hwaiting
      have hsame : last = last' := by simpa [newest] using hlast'
      subst hsame
      rw [hrecords] at hrest
      rw [hrest]
      exact legal
  have huser : ∀ k, c.table.UserAt k → Table.UserAt ⟨c.table.source,
      init ++ [{ last with bytes := bytes, body := .here (records ++ [r]) origin }],
      c.table.evictions⟩ k := by
    intro k hk
    rcases hk with ⟨t, ht, htr, hrole, rfl⟩ | hk
    · left
      rw [newest] at ht
      rcases List.mem_append.mp ht with ht | ht
      · exact ⟨t, List.mem_append_left _ ht, htr, hrole, rfl⟩
      · rw [List.mem_singleton.mp ht] at hrole ⊢
        exact ⟨_, List.mem_append_right _ (List.mem_singleton_self _), rfl, hrole, rfl⟩
    · exact Or.inr hk
  constructor
  · intro t ht
    rcases List.mem_append.mp ht with ht | ht
    · exact proper.turns t (by rw [newest]; exact List.mem_append_left _ ht)
    · rw [List.mem_singleton.mp ht]
      have hproper := proper.turns last hlast
      unfold Turn.Proper at hproper ⊢
      cases origin with
      | none =>
        simp only [here] at hproper
        refine ⟨hproper.1.concat hfits, ?_⟩
        intro s hs
        rcases List.mem_append.mp hs with hs | hs
        · exact hproper.2 s hs
        · rw [List.mem_singleton.mp hs]
          exact wrote_r
      | some origin =>
        simp only [here] at hproper
        exact ⟨hproper.1.concat hfits, hproper.2⟩
  · intro hwaiting
    rw [show (c.state.advance r.value).admitsNewTurn = true from advance_extends adds _] at hwaiting
    cases hwaiting
  · intro t ht htr hrole
    rcases List.mem_append.mp ht with ht | ht
    · obtain ⟨k, hk, hbelow⟩ := proper.led t (by rw [newest]; exact List.mem_append_left _ ht) htr
        hrole
      exact ⟨k, huser k hk, hbelow⟩
    · rw [List.mem_singleton.mp ht] at hrole ⊢
      obtain ⟨k, hk, hbelow⟩ := proper.led last hlast hresident hrole
      exact ⟨k, huser k hk, hbelow⟩
  · intro _
    have hspoken : ∃ k, c.table.UserAt k := by
      cases hrole : last.role with
      | user => exact ⟨last.id, Or.inl ⟨last, hlast, hresident, hrole, rfl⟩⟩
      | assistant =>
        obtain ⟨k, hk, -⟩ := proper.led last hlast hresident hrole
        exact ⟨k, hk⟩
    obtain ⟨k, hk⟩ := hspoken
    exact ⟨k, huser k hk⟩

theorem Change.proper {c c' : Context} {r : Recorded Transcript} (h : Change c r c')
    (proper : c.Proper wrote) (blank : c.Blank) (rested : c.Rested)
    (sound : c.table.ledger.Sound) (lawful : Lawful r.value) (wrote_r : wrote r) :
    c'.Proper wrote := by
  cases h with
  | system => exact ⟨proper.turns, proper.waiting, proper.led, proper.opened⟩
  | @link locus turns evictions seeds table first soundLink read installed =>
    obtain ⟨parent, wrote', rfl, rfl, hsound, hproper, hheld⟩ := lawful.link turns evictions rfl
    exact hproper.installed hsound hheld read installed (blank first).2.2
  | evict evictable => exact proper_evict proper rested evictable
  | withdraw edit ready uncut recorded => exact proper_withdraw proper rested ready
  | opened opens legal fresh => exact proper_opens proper sound opens legal fresh lawful wrote_r
  | extended adds legal newest here => exact proper_extends proper rested adds legal newest here wrote_r
  | adrift legal adds empty waiting =>
    obtain ⟨last, hlast, -⟩ := proper.waiting waiting
    simp [empty] at hlast

theorem Proper.paired {c : Context} (proper : c.Proper wrote) (rested : c.Rested)
    (ready : c.state.admitsNewTurn) : Paired c.sent := by
  apply Paired.flatMap
  intro i hi
  obtain ⟨hmem, hresident⟩ := Table.mem_frontier.mp hi
  rcases Table.mem_unsorted.mp hmem with ⟨e, he, rfl⟩ | ⟨t, ht, rfl⟩
  · exact .plain rfl rfl .nil
  · have hshaped := (proper.turns t ht).shaped hresident
    exact hshaped.fitted.owed (rested.ready ready t ht)

/-- And its first message is the user's. -/
theorem Proper.first {c : Context} (proper : c.Proper wrote) (sound : c.table.ledger.Sound)
    {message : ChatMessage} (h : c.rendered.head? = some message) : message.role = .user := by
  have hordered := Table.frontier_ordered sound
  have hin : ∀ i ∈ c.table.frontier, i ∈ c.table.unsorted ∧ i.location = .resident :=
    fun i hi => Table.mem_frontier.mp hi
  unfold rendered at h
  cases hfrontier : c.table.frontier with
  | nil => simp [hfrontier] at h
  | cons i rest =>
    rw [hfrontier, List.flatMap_cons] at h
    obtain ⟨hmem, hresident⟩ := hin i (by simp [hfrontier])
    rcases Table.mem_unsorted.mp hmem with ⟨e, he, rfl⟩ | ⟨t, ht, rfl⟩
    · simp only [Item.messages, List.cons_append, List.head?_cons, Option.some.injEq] at h
      rw [← h]
      rfl
    · cases hrole : t.role with
      | user =>
        obtain ⟨r, records, hrecords, hopening⟩ :=
          ((proper.turns t ht).shaped hresident).opening hrole
        obtain ⟨first, hfirst, hspoken⟩ := hopening.messages
        simp [Item.messages, residentMessages, hrecords, hfirst] at h
        rwa [← h]
      | assistant =>
        -- Something speaks for the user before it, so it does not come first.
        obtain ⟨k, hk, hbelow⟩ := proper.led t ht hresident hrole
        have hearlier : ∃ j ∈ c.table.frontier, j.span.fst = k := by
          rcases hk with ⟨u, hu, hur, -, rfl⟩ | ⟨e, he, her, rfl⟩
          · exact ⟨.turn u, Table.mem_frontier.mpr
              ⟨Table.mem_unsorted.mpr (Or.inr ⟨u, hu, rfl⟩), hur⟩, rfl⟩
          · exact ⟨.eviction e, Table.mem_frontier.mpr
              ⟨Table.mem_unsorted.mpr (Or.inl ⟨e, he, rfl⟩), her⟩, rfl⟩
        obtain ⟨j, hj, hfst⟩ := hearlier
        rw [hfrontier] at hj hordered
        rcases List.mem_cons.mp hj with rfl | hj
        · have hself : t.id = k := hfst
          omega
        · have hafter : t.id < j.span.fst := (List.pairwise_cons.mp hordered).1 j hj
          omega

end Context

/-! ## Lineages -/

/-- The logs of a session and of its forks, each attended by its agent, in any order. -/
inductive AgentLog.Lineage [Host] : Phase → AgentLog → Prop
  | root {writer : Writer} {id : AgentId} {system : String} {log : AgentLog}
      (opened : AgentLog.create writer id none system = (.committed, log)) : Lineage .resting log
  | fork {writer : Writer} {phase : Phase} {parent log : AgentLog} {id : AgentId} {system : String}
      (of : Lineage phase parent) (readable : parent.Readable)
      (opened : AgentLog.create writer id (some parent.inheritedContext) system =
        (.committed, log)) : Lineage .resting log
  | step {writer : Writer} {phase phase' : Phase} {log log' : AgentLog} (before : Lineage phase log)
      (next : AgentLog.Attends writer phase log phase' log') : Lineage phase' log'

/-- The one note an agent imports is the user's. -/
theorem Phase.Runs.note {phase : Phase} {message : ChatMessage} (may : phase.Runs (.importNote message)) :
    message.role = .user := by
  cases phase with
  | resting =>
    obtain ⟨text, rfl⟩ := may
    rfl
  | attempting prompt => cases may
  | deliberating => exact may.elim

theorem nextId_in_range (c : Context) : c.nextId ≤ u64Max := by
  unfold Context.nextId saturatingAdd
  omega

section Lineages
variable [Host]

theorem lawful_of_plain {p : Transcript} (note : ∀ id message, p ≠ .import id message)
    (link : ∀ turns evictions, p ≠ .inherited turns evictions) : Context.Lawful p :=
  ⟨fun id message h => absurd h (note id message),
    fun turns evictions h => absurd h (link turns evictions)⟩

/-- What an operation writes is lawful, where a note imported is the user's. -/
theorem Operation.Writes.lawful {c : Context} {op : Operation} {ps : List Transcript}
    (h : op.Writes c ps) (note : ∀ message, op = .importNote message → message.role = .user) :
    ∀ p ∈ ps, Context.Lawful p ∧ p.InRange := by
  have hnext := nextId_in_range c
  intro p hp
  cases h with
  | note ready =>
    rw [List.mem_singleton.mp hp]
    refine ⟨⟨?_, by simp⟩, by simp [Transcript.InRange, Context.opens, hnext]⟩
    intro id message heq
    cases heq
    exact note _ rfl
  | quiesce =>
    rcases mem_quiesceRecords hp with ⟨ids, rfl⟩ | rfl
    · exact ⟨lawful_of_plain (by simp [unrunResults]) (by simp [unrunResults]),
        by simp [Transcript.InRange, Context.opens, unrunResults]⟩
    · exact ⟨lawful_of_plain (by simp [capstone]) (by simp [capstone]),
        by simp [Transcript.InRange, Context.opens, capstone, hnext]⟩
  | _ =>
    rw [List.mem_singleton.mp hp]
    exact ⟨lawful_of_plain (by simp) (by simp), by simp [Transcript.InRange, Context.opens, hnext]⟩

namespace AgentLog

/-- A log that is its fold, of lawful records. -/
structure Whole (log : AgentLog) : Prop where
  folded : log.Folded
  lawful : ∀ r ∈ log.written, Context.Lawful r.value ∧ r.value.InRange

theorem Grew.whole {log log' : AgentLog} {ps : List Transcript} (h : log.Grew ps log')
    (whole : log.Whole) (lawful : ∀ p ∈ ps, Context.Lawful p ∧ p.InRange) : log'.Whole := by
  refine ⟨h.folded whole.folded, ?_⟩
  obtain ⟨-, records, hps, hwritten, -⟩ := h
  rw [hwritten]
  intro r hr
  rcases List.mem_append.mp hr with hr | hr
  · exact whole.lawful r hr
  · exact lawful r.value (hps.subset (List.mem_map_of_mem hr))

theorem Whole.holds {log : AgentLog} (whole : log.Whole) :
    log.context.Rested ∧ log.context.table.ledger.Sound ∧
      log.context.Proper (fun r => r ∈ log.written) ∧ log.context.table.source = log.id := by
  have hnew : (Context.new log.id).Proper fun r => r ∈ log.written := by
    constructor <;> simp [Context.new, Table.new, State.admitsNewTurn]
  have hkept := Context.replay_invariant
    (P := fun c => c.Blank ∧ c.Rested ∧ c.table.ledger.Sound ∧
      c.Proper (fun r => r ∈ log.written) ∧ c.table.source = log.id)
    (Q := fun r => r ∈ log.written) (by
      intro c c' r hc hr hchange
      obtain ⟨hblank, hrested, hsound, hproper, hsource⟩ := hc
      obtain ⟨hlawful, hrange⟩ := whole.lawful r hr
      exact ⟨hchange.blank, hchange.rested hblank hrested, hchange.sound hsound hrange,
        hchange.proper hproper hblank hrested hsound hlawful hr, hchange.source.trans hsource⟩)
    (fun r hr => hr)
    ⟨Context.new_blank _, Context.new_rested _, Context.new_sound _, hnew, rfl⟩ whole.folded
  exact hkept.2

theorem whole_new (id : AgentId) (failure : Option String) :
    (AgentLog.mk id (.new id) [] failure).Whole := ⟨rfl, by simp⟩

theorem lawful_system (system : String) :
    ∀ p ∈ [Transcript.system system], Context.Lawful p ∧ p.InRange := by
  intro p hp
  rw [List.mem_singleton.mp hp]
  exact ⟨lawful_of_plain (by simp) (by simp), by simp [Transcript.InRange, Context.opens]⟩

theorem Whole.link_lawful {parent : AgentLog} (whole : parent.Whole) (readable : parent.Readable) :
    Context.Lawful (.inherited parent.context.linked parent.context.evictions) ∧
      (Transcript.inherited parent.context.linked parent.context.evictions).InRange := by
  obtain ⟨-, hsound, hproper, hsource⟩ := whole.holds
  refine ⟨⟨by simp, ?_⟩, by simp [Context.opens], ?_⟩
  · intro turns evictions heq
    cases heq
    exact ⟨parent.context, _, rfl, rfl, hsound, hproper, fun r hr => hsource ▸ readable r hr⟩
  · intro turns evictions heq l hl
    cases heq
    obtain ⟨t, ht, rfl⟩ := List.mem_map.mp hl
    apply hsound.bounded t.id
    rw [Table.ledger_ids]
    exact List.mem_map_of_mem ht

theorem Attends.whole {writer : Writer} {phase phase' : Phase} {log log' : AgentLog}
    (h : Attends writer phase log phase' log') (whole : log.Whole) : log'.Whole := by
  cases h with
  | takes text voice => exact whole
  | nudges text current => exact whole
  | ends => exact whole
  | runs may run alive =>
    obtain ⟨ps, hgrew, rfl | hwrites⟩ := run_grew run alive
    · exact hgrew.whole whole (by simp)
    · exact hgrew.whole whole (hwrites.lawful fun message hop => (hop ▸ may).note)
  | @reopens _ _ _ system out run alive =>
    obtain ⟨mid, hquiesced, hprompted⟩ := reopen_grew whole.folded run alive
    have hwrites : (Operation.quiesce .aborted).Writes log.context _ := .quiesce
    exact hprompted.whole (hquiesced.whole whole (hwrites.lawful (by simp))) (lawful_system system)

theorem Lineage.whole {phase : Phase} {log : AgentLog} (h : Lineage phase log) : log.Whole := by
  induction h with
  | @root writer id system log opened =>
    exact (create_grew opened).whole (whole_new id none) (lawful_system system)
  | @fork writer phase parent log id system of readable opened ih =>
    apply (create_grew opened).whole (whole_new id none)
    intro p hp
    rcases List.mem_cons.mp hp with rfl | hp
    · exact ih.link_lawful readable
    · exact lawful_system system p hp
  | step before next ih => exact next.whole ih

/-- Whatever a lineage has been through, a request of it pairs every message's calls with
results for exactly those calls and opens with the user, once no result is awaited. -/
theorem requests_pair_calls {phase : Phase} {log : AgentLog} (h : Lineage phase log)
    (settled : ∀ ids, log.context.state ≠ .awaitingToolResults ids) :
    log.context.sent.map Sent.message = log.context.rendered ∧ Paired log.context.sent ∧
      ∀ message, log.context.rendered.head? = some message → message.role = .user := by
  obtain ⟨hrested, hsound, hproper, -⟩ := h.whole.holds
  have hready : log.context.state.admitsNewTurn := by
    cases hs : log.context.state with
    | awaitingToolResults ids => exact absurd hs (settled ids)
    | readyForUser => rfl
    | awaitingAssistantAfterUser => rfl
    | awaitingAssistantAfterToolResults => rfl
  exact ⟨log.context.sent_messages, hproper.paired hrested hready, fun _ => hproper.first hsound⟩

end AgentLog

end Lineages

namespace AgentLog

def answered [Host] : AgentLog := ((awaiting ["a"]).appendToolResults steadyWriter [⟨"a", "done"⟩]).2

theorem answered_lineage [Host] : Lineage .deliberating answered := by
  have hopened : Lineage .resting (AgentLog.create steadyWriter 1 none "").2 :=
    .root (show AgentLog.create steadyWriter 1 none "" = (.committed, _) from rfl)
  have hcalls : Phase.deliberating.Runs (.appendAssistant (.assistant "calling") ["a"] none) := trivial
  have hanswers : Phase.deliberating.Runs (.appendToolResults [⟨"a", "done"⟩]) := trivial
  have htaken := hopened.step (@Attends.takes _ steadyWriter _ "go" .human)
  have hprompted := htaken.step (@Attends.commits _ steadyWriter _ _ _ rfl rfl)
  have hcalled := hprompted.step (@Attends.commits _ steadyWriter _ _ _ hcalls rfl)
  have hanswered := hcalled.step (@Attends.commits _ steadyWriter _ _ _ hanswers rfl)
  exact hanswered

theorem requests_pair_calls_answered : ∃ (_ : Host) (log : AgentLog),
    log.context.sent.map Sent.answers = [none, none, some "a"] ∧ Paired log.context.sent := by
  have hpairs := @requests_pair_calls Context.fileless _ _ (@answered_lineage Context.fileless) (by
    intro ids h
    cases h)
  exact ⟨Context.fileless, @answered Context.fileless, by decide, hpairs.2.1⟩

end AgentLog

end Ral.Session
