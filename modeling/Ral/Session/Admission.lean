import Ral.Session.Resting

/-! # Admission

What a log's operation checks before it writes, against what the judge checks after. They
agree on every context a log reaches but one: calls outstanding under one id twice.
-/

namespace Ral.Session
open Ral.Record (Recorded Locus)

/-- The records an operation that is not refused writes, and what it has checked. -/
inductive Operation.Writes (c : Context) : Operation → List Transcript → Prop
  | user {text : String} {continues : Option ℕ} {voice : Voice} (ready : c.state.admitsNewTurn) :
    Writes c (.appendUser text continues voice) [.userPrompt c.nextId text voice]
  | continued {text : String} {id : ℕ} {voice : Voice} (ready : c.state.admitsNewTurn)
      (live : c.livePrompt = some id) :
    Writes c (.appendUser text (some id) voice) [.steering text voice]
  | steering {text : String} {voice : Voice} {id : ℕ} (awaits : c.state.awaitsAssistant)
      (unclosed : c.unclosedTurn = some id) :
    Writes c (.appendSteering text voice) [.steering text voice]
  | assistant {message : ChatMessage} {ids : List String} {stopReason : Option String}
      (awaits : c.state.awaitsAssistant) (role : message.role = .assistant) :
    Writes c (.appendAssistant message ids stopReason)
      [.assistantMessage c.nextId message ids stopReason]
  | results {results : List ToolResult} {ids : List String}
      (awaits : c.state = .awaitingToolResults ids)
      (valid : (validateResultIds ids results).isOk) :
    Writes c (.appendToolResults results) [.toolResults results]
  | note {message : ChatMessage} (ready : c.state.admitsNewTurn) :
    Writes c (.importNote message) [.import c.nextId message]
  | evict {span : Span} {note : Option String} {authority : EditAuthority}
      (evictable : c.Evictable span) :
    Writes c (.evict span note authority) [.evicted ⟨span, note, authority⟩]
  | rewind {anchor : ℕ} (ready : c.state.admitsNewTurn) (rewindable : c.Rewindable anchor) :
    Writes c (.rewind anchor) [.rewound anchor]
  | clear (ready : c.state.admitsNewTurn) : Writes c .clear [.cleared]
  | quiesce {reason : QuiesceReason} :
    Writes c (.quiesce reason) (quiesceRecords c.state reason c.nextId)

namespace Operation
open AgentLog

variable [Host] {writer : Writer} {log : AgentLog}

theorem recordAll_singleton (p : Transcript) :
    recordAll writer [p] log = log.recordTranscript writer p := by
  unfold recordAll
  cases h : log.recordTranscript writer p with
  | mk out log' => cases out <;> simp [recordAll]

/-- An operation is refused, finds the writer failed, or writes what it may. -/
theorem run_cases (writer : Writer) (log : AgentLog) (op : Operation) :
    (∃ why, op.run writer log = (.refused why, log)) ∨
      (∃ why, op.run writer log = (.unavailable why, log)) ∨
      ∃ ps, op.Writes log.context ps ∧ op.run writer log = recordAll writer ps log := by
  cases op with
  | appendUser text continues voice =>
    unfold run AgentLog.appendUser
    dsimp only
    cases hr : log.context.isReady with
    | false => exact Or.inl ⟨_, rfl⟩
    | true =>
      right
      right
      simp only [Bool.not_true, Bool.false_eq_true, if_false]
      cases hl : continues.any fun id => log.context.livePrompt == some id with
      | false => exact ⟨_, .user hr, by simp [recordAll_singleton]⟩
      | true =>
        cases continues with
        | none => simp at hl
        | some id =>
          have hlive : log.context.livePrompt = some id := by simpa using hl
          exact ⟨_, .continued hr hlive, by simp [recordAll_singleton]⟩
  | appendSteering text voice =>
    unfold run AgentLog.appendSteering
    dsimp only
    cases ha : log.context.state.awaitsAssistant with
    | false => exact Or.inl ⟨_, rfl⟩
    | true =>
      cases hu : log.context.unclosedTurn with
      | none => exact Or.inl ⟨_, rfl⟩
      | some id =>
        right
        right
        exact ⟨_, .steering ha hu, by simp [recordAll_singleton]⟩
  | appendAssistant message ids stopReason =>
    unfold run AgentLog.appendAssistant
    dsimp only
    cases ha : log.context.state.awaitsAssistant with
    | false => exact Or.inl ⟨_, rfl⟩
    | true =>
      by_cases hrole : message.role = .assistant
      · right
        right
        exact ⟨_, .assistant ha hrole, by simp [recordAll_singleton, hrole]⟩
      · left
        exact ⟨_, by simp only [Bool.not_true, Bool.false_eq_true, if_false, ne_eq, hrole,
          not_false_eq_true, if_true]; rfl⟩
  | appendToolResults results =>
    unfold run AgentLog.appendToolResults Context.pendingToolResults
    dsimp only
    cases hs : log.context.state with
    | awaitingToolResults ids =>
      dsimp only
      cases hv : validateResultIds ids results with
      | error why => exact Or.inl ⟨why, rfl⟩
      | ok u =>
        right
        right
        exact ⟨_, .results hs (by rw [hv]; rfl), by simp [recordAll_singleton]⟩
    | readyForUser => exact Or.inl ⟨_, rfl⟩
    | awaitingAssistantAfterUser => exact Or.inl ⟨_, rfl⟩
    | awaitingAssistantAfterToolResults => exact Or.inl ⟨_, rfl⟩
  | importNote message =>
    unfold run AgentLog.importNote
    dsimp only
    cases hr : log.context.isReady with
    | false => exact Or.inl ⟨_, rfl⟩
    | true =>
      right
      right
      exact ⟨_, .note hr, by simp [recordAll_singleton]⟩
  | evict span note authority =>
    unfold run AgentLog.evict
    dsimp only
    cases hc : log.context.cutRefusal span with
    | some why => exact Or.inl ⟨why, rfl⟩
    | none =>
      right
      right
      exact ⟨_, .evict (Context.cutRefusal_eq_none.mp hc), by simp [recordAll_singleton]⟩
  | rewind anchor =>
    unfold run AgentLog.rewind
    dsimp only
    cases hc : log.context.rewindRefusal anchor with
    | some why => exact Or.inl ⟨why, rfl⟩
    | none =>
      right
      right
      obtain ⟨hrewindable, hready⟩ := Context.rewindRefusal_eq_none.mp hc
      exact ⟨_, .rewind hready hrewindable, by simp [recordAll_singleton]⟩
  | clear =>
    unfold run AgentLog.clear
    dsimp only
    cases hf : log.failure with
    | some why => exact Or.inr (Or.inl ⟨why, rfl⟩)
    | none =>
      dsimp only
      cases hr : log.context.isReady with
      | false => exact Or.inl ⟨_, rfl⟩
      | true =>
        right
        right
        exact ⟨_, .clear hr, by simp [recordAll_singleton]⟩
  | quiesce reason => exact Or.inr (Or.inr ⟨_, .quiesce, rfl⟩)

end Operation

/-! ## Records the judge admits -/

namespace Context

def Admits [Host] : Context → List Transcript → Prop
  | _, [] => True
  | c, p :: ps => c.judge (c.len + 1) p = none ∧ (∀ turns evictions, p ≠ .inherited turns evictions) ∧
    ∀ locus c', c.stepTranscript ⟨locus, p⟩ = .ok c' → Admits c' ps

theorem awaitsAssistant_ready {state : State} (h : state.awaitsAssistant) :
    state.admitsNewTurn := by
  cases state <;> simp [State.awaitsAssistant, State.admitsNewTurn] at h ⊢

theorem nextId_fresh {c : Context} (room : c.idFloor < u64Max) :
    ∀ reach, c.reach = some reach → reach < c.nextId := by
  intro reach hreach
  have hfloor : c.idFloor = reach := by simp [idFloor, hreach]
  unfold nextId saturatingAdd
  omega

theorem judge_opens {c : Context} {p : Transcript} (room : c.idFloor < u64Max)
    (legal : admissible c.state p) (opened : opens p = some c.nextId) :
    c.judge (c.len + 1) p = none := by
  rw [judge_eq_none]
  refine ⟨legal, ?_, ?_, ?_⟩
  · intro id hid
    rw [opened] at hid
    cases hid
    exact nextId_fresh room
  · cases p <;> first | rfl | simp [opens] at opened
  · intro t ht
    cases p <;> first | (simp [opens] at opened; done) | simp [extended] at ht

theorem judge_extends {c : Context} {p : Transcript} {last : Turn} (adds : Extends p)
    (legal : admissible c.state p) (newest : c.table.turns.getLast? = some last)
    (resident : last.location = .resident) : c.judge (c.len + 1) p = none := by
  rw [judge_eq_none]
  refine ⟨legal, ?_, ?_, ?_⟩
  · cases adds <;> simp [opens]
  · have hsome : c.table.turns ≠ [] := by
      intro hnil
      simp [hnil] at newest
    cases adds <;> simp [kindRefusal, hsome]
  · intro t ht
    rw [extended_eq adds, newest] at ht
    cases ht
    exact resident

theorem newest_of_waiting {c : Context} (h : c.Rested) (waiting : c.state.admitsNewTurn = false) :
    ∃ last, c.table.turns.getLast? = some last ∧ last.location = .resident := by
  obtain ⟨init, last, newest, resident, -⟩ := h.waiting waiting
  exact ⟨last, by simp [newest], resident⟩

theorem unrun_valid {ids : List String} (h : ids.Nodup) :
    (validateResultIds ids (ids.map fun id => ⟨id, unrunToolCall⟩)).isOk := by
  rw [validateResultIds_ok]
  exact ⟨h, by simp [Function.comp_def]⟩

variable [Host]

theorem admits_singleton {c : Context} {p : Transcript} (judged : c.judge (c.len + 1) p = none)
    (notLink : ∀ turns evictions, p ≠ .inherited turns evictions) : c.Admits [p] :=
  ⟨judged, notLink, fun _ _ _ => trivial⟩

theorem state_of_extends {c c' : Context} {r : Recorded Transcript}
    (h : c.stepTranscript r = .ok c') (adds : Extends r.value) :
    c'.state = c.state.advance r.value ∧ c'.idFloor = c.idFloor ∧ c'.len = c.len + 1 := by
  obtain ⟨locus, p⟩ := r
  have hchange := change_of_step h
  cases hchange with
  | system => cases adds
  | link => cases adds
  | evict => cases adds
  | withdraw edit => rcases edit with rfl | ⟨rfl, -⟩ <;> cases adds
  | opened opens => cases opens <;> cases adds
  | extended _ legal newest here =>
    refine ⟨rfl, ?_, rfl⟩
    simp [idFloor, reach, newest]
  | adrift => exact ⟨rfl, rfl, rfl⟩

omit [Host] in
theorem judge_capstone {c : Context} (room : c.idFloor < u64Max)
    (awaits : c.state.awaitsAssistant) : c.judge (c.len + 1) (capstone c.nextId) = none := by
  apply judge_opens room
  · simp [admissible, capstone, ChatMessage.assistant, awaits]
  · rfl

omit [Host] in
theorem judge_unrun {c : Context} (rested : c.Rested) {ids : List String}
    (awaits : c.state = .awaitingToolResults ids) (distinct : ids.Nodup) :
    c.judge (c.len + 1) (unrunResults ids) = none := by
  obtain ⟨last, newest, resident⟩ := newest_of_waiting rested (by rw [awaits]; rfl)
  have hlegal : admissible c.state (unrunResults ids) := by
    rw [awaits]
    exact unrun_valid distinct
  exact judge_extends (.results _) hlegal newest resident

/-- What a quiesce writes is admitted where no id is awaited twice. -/
theorem quiesce_admitted {c : Context} (rested : c.Rested) (room : c.idFloor < u64Max)
    (distinct : c.state.pending.Nodup) (reason : QuiesceReason) :
    c.Admits (quiesceRecords c.state reason c.nextId) := by
  cases hs : c.state with
  | readyForUser => cases reason <;> trivial
  | awaitingAssistantAfterUser =>
    cases reason with
    | replied =>
      apply admits_singleton (judge_capstone room (by rw [hs]; rfl))
      intro turns evictions h
      cases h
    | _ => trivial
  | awaitingAssistantAfterToolResults =>
    cases reason with
    | replied =>
      apply admits_singleton (judge_capstone room (by rw [hs]; rfl))
      intro turns evictions h
      cases h
    | _ => trivial
  | awaitingToolResults ids =>
    rw [hs] at distinct
    have hjudged := judge_unrun rested hs distinct
    have hnotLink : ∀ turns evictions, unrunResults ids ≠ .inherited turns evictions := by
      intro turns evictions h
      cases h
    cases reason with
    | replied =>
      refine ⟨hjudged, hnotLink, ?_⟩
      intro locus c' hstep
      obtain ⟨hstate, hfloor, -⟩ := state_of_extends hstep (.results _)
      have hnext : c.nextId = c'.nextId := by simp [nextId, hfloor]
      rw [hnext]
      apply admits_singleton
      · apply judge_capstone (by omega)
        rw [hstate]
        rfl
      · intro turns evictions h
        cases h
    | _ => exact admits_singleton hjudged hnotLink

/-- Whatever an operation checks suffices for the judge, where no id is awaited twice. -/
theorem writes_admitted {c : Context} (rested : c.Rested) (room : c.idFloor < u64Max)
    (distinct : c.state.pending.Nodup) {op : Operation} {ps : List Transcript}
    (h : op.Writes c ps) : c.Admits ps := by
  cases h with
  | user ready => exact admits_singleton (judge_opens room ready rfl) (by intro _ _ h; cases h)
  | @continued text id voice ready live =>
    unfold livePrompt at live
    cases hlast : c.table.turns.getLast?.filter Turn.isResident with
    | none => simp [hlast] at live
    | some last =>
      obtain ⟨newest, resident⟩ := Option.filter_eq_some_iff.mp hlast
      exact admits_singleton
        (judge_extends (.steering text voice) ready newest (Turn.isResident_eq.mp resident))
        (by intro _ _ h; cases h)
  | @steering text voice id awaits unclosed =>
    unfold unclosedTurn at unclosed
    rw [Option.map_eq_some_iff] at unclosed
    obtain ⟨last, hlast, -⟩ := unclosed
    obtain ⟨newest, hboth⟩ := Option.filter_eq_some_iff.mp hlast
    have hresident : last.isResident := (Bool.and_eq_true_iff.mp hboth).1
    exact admits_singleton
      (judge_extends (.steering text voice) (awaitsAssistant_ready awaits) newest
        (Turn.isResident_eq.mp hresident))
      (by intro _ _ h; cases h)
  | assistant awaits role =>
    exact admits_singleton (judge_opens room (by simp [admissible, role, awaits]) rfl)
      (by intro _ _ h; cases h)
  | @results results ids awaits valid =>
    obtain ⟨last, newest, resident⟩ := newest_of_waiting rested (by rw [awaits]; rfl)
    have hlegal : admissible c.state (.toolResults results) := by
      rw [awaits]
      exact valid
    exact admits_singleton (judge_extends (.results results) hlegal newest resident)
      (by intro _ _ h; cases h)
  | note ready => exact admits_singleton (judge_opens room ready rfl) (by intro _ _ h; cases h)
  | @evict span note authority evictable =>
    apply admits_singleton
    · rw [judge_eq_none]
      refine ⟨rfl, by simp [opens], ?_, by simp [extended]⟩
      simp [kindRefusal, cutRefusal_eq_none.mpr evictable]
    · intro _ _ h
      cases h
  | rewind ready rewindable =>
    apply admits_singleton
    · rw [judge_eq_none]
      exact ⟨ready, by simp [opens], anchorRefusal_eq_none.mpr rewindable, by simp [extended]⟩
    · intro _ _ h
      cases h
  | clear ready =>
    apply admits_singleton
    · rw [judge_eq_none]
      exact ⟨ready, by simp [opens], rfl, by simp [extended]⟩
    · intro _ _ h
      cases h
  | quiesce => exact quiesce_admitted rested room distinct _

end Context

end Ral.Session
