import Ral.Session.Admission
import Ral.Session.Partition

/-! # Live admission

Whatever a log's operation writes its own fold admits, on every log reached by runs in which no
message calls twice under one id; and only there.
-/

namespace Ral.Session
open Ral.Record (Recorded Locus)

/-! ## Settling -/

namespace AgentLog

/-- What was written in between is of `ps`, from the first on, and the context is its fold. -/
def Grew [Host] (log : AgentLog) (ps : List Transcript) (log' : AgentLog) : Prop :=
  log'.id = log.id ∧ ∃ records, records.map Recorded.value <+: ps ∧
    log'.written = log.written ++ records ∧ log.context.replay records = .ok log'.context

/-- The fold admitted every record written, and a refusal left the log as it was. -/
structure Settles [Host] (log : AgentLog) (result : Outcome × AgentLog) : Prop where
  alive : ∀ message, result.1 ≠ .panicked message
  unchanged : ∀ why, result.1 = .refused why → result.2 = log
  grew : ∃ ps, log.Grew ps result.2

variable [Host] {writer : Writer} {log : AgentLog}

theorem Grew.refl (log : AgentLog) (ps : List Transcript) : log.Grew ps log :=
  ⟨rfl, [], List.nil_prefix, by simp, rfl⟩

/-- What committing one record does. -/
structure Wrote [Host] (log : AgentLog) (p : Transcript) (log' : AgentLog) (locus : Locus) :
    Prop where
  id : log'.id = log.id
  written : log'.written = log.written ++ [⟨locus, p⟩]
  step : log.context.stepTranscript ⟨locus, p⟩ = .ok log'.context

theorem Grew.cons {log mid log' : AgentLog} {p : Transcript} {ps : List Transcript}
    {locus : Locus} (first : log.Wrote p mid locus) (h : mid.Grew ps log') :
    log.Grew (p :: ps) log' := by
  obtain ⟨hid, records, hps, hwritten, hreplay⟩ := h
  refine ⟨hid.trans first.id, ⟨locus, p⟩ :: records, ?_, ?_, ?_⟩
  · exact List.cons_prefix_cons.mpr ⟨rfl, hps⟩
  · rw [hwritten, first.written, List.append_assoc]
    rfl
  · exact Context.replay_cons.mpr ⟨mid.context, first.step, hreplay⟩

theorem recordTranscript_committed {p : Transcript} {log' : AgentLog}
    (h : log.recordTranscript writer p = (.committed, log')) :
    ∃ locus, log.Wrote p log' locus := by
  unfold recordTranscript emit at h
  cases hf : log.failure with
  | some why => simp [hf] at h
  | none =>
    simp only [hf] at h
    cases hw : writer log.written p with
    | error why => simp [hw] at h
    | ok locus =>
      simp only [hw] at h
      cases hstep : log.context.stepTranscript ⟨locus, p⟩ with
      | error e => cases e <;> simp [hstep] at h
      | ok context =>
        simp only [hstep] at h
        cases h
        exact ⟨locus, rfl, rfl, hstep⟩

/-- A record that is no link is committed, finds the writer failing, or is refused by the
judge. -/
theorem recordTranscript_cases (writer : Writer) (log : AgentLog) (p : Transcript)
    (notLink : ∀ turns evictions, p ≠ .inherited turns evictions) :
    (∃ why log', log.recordTranscript writer p = (.unavailable why, log') ∧
        ∀ ps, log.Grew ps log') ∨
      (∃ log', log.recordTranscript writer p = (.committed, log')) ∨
      ∃ message log', log.recordTranscript writer p = (.panicked message, log') ∧
        log.context.judge (log.context.len + 1) p ≠ none := by
  unfold recordTranscript emit
  cases hf : log.failure with
  | some why => exact Or.inl ⟨why, log, rfl, .refl log⟩
  | none =>
    dsimp only
    cases hw : writer log.written p with
    | error why => exact Or.inl ⟨why, _, rfl, fun ps => ⟨rfl, [], List.nil_prefix, by simp, rfl⟩⟩
    | ok locus =>
      right
      dsimp only
      cases hj : log.context.judge (log.context.len + 1) p with
      | none =>
        left
        obtain ⟨context, hstep, -⟩ := @Context.step_judged _ log.context ⟨locus, p⟩ hj notLink
        exact ⟨_, by rw [hstep]⟩
      | some reason =>
        right
        have hstep : log.context.stepTranscript ⟨locus, p⟩ = .error (.foreign p reason) := by
          unfold Context.stepTranscript
          rw [hj]
        exact ⟨_, _, by rw [hstep], by simp⟩

/-- Records admitted one after another are committed, as far as the writer goes. -/
theorem recordAll_admitted (writer : Writer) {ps : List Transcript} {log : AgentLog}
    (admits : log.context.Admits ps) {out : Outcome} {log' : AgentLog}
    (h : log.recordAll writer ps = (out, log')) :
    (out = .committed ∨ ∃ why, out = .unavailable why) ∧ log.Grew ps log' := by
  induction ps generalizing log with
  | nil =>
    cases h
    exact ⟨Or.inl rfl, .refl _ []⟩
  | cons p ps ih =>
    obtain ⟨judged, notLink, rest⟩ := admits
    unfold recordAll at h
    rcases recordTranscript_cases writer log p notLink with ⟨why, stopped, hrun, hgrew⟩ |
      ⟨mid, hrun⟩ | ⟨message, stopped, -, hbad⟩
    · rw [hrun] at h
      cases h
      exact ⟨Or.inr ⟨why, rfl⟩, hgrew _⟩
    · rw [hrun] at h
      obtain ⟨locus, hfirst⟩ := recordTranscript_committed hrun
      obtain ⟨hout, hgrew⟩ := ih (rest locus mid.context hfirst.step) h
      exact ⟨hout, .cons hfirst hgrew⟩
    · exact absurd judged hbad

theorem recordAll_settles (writer : Writer) {ps : List Transcript} {log : AgentLog}
    (admits : log.context.Admits ps) : log.Settles (log.recordAll writer ps) := by
  obtain ⟨hout, hgrew⟩ := recordAll_admitted writer admits (Prod.mk.eta).symm
  constructor
  · intro message h
    rw [h] at hout
    simp at hout
  · intro why h
    rw [h] at hout
    simp at hout
  · exact ⟨ps, hgrew⟩

/-- Short of a panic, a log has grown by what it was to write. -/
theorem recordAll_grew {ps : List Transcript} {log log' : AgentLog} {out : Outcome}
    (notLink : ∀ p ∈ ps, ∀ turns evictions, p ≠ .inherited turns evictions)
    (h : log.recordAll writer ps = (out, log')) (alive : ∀ message, out ≠ .panicked message) :
    log.Grew ps log' := by
  induction ps generalizing log with
  | nil =>
    cases h
    exact .refl _ []
  | cons p ps ih =>
    have notLink' := fun q hq => notLink q (List.mem_cons_of_mem _ hq)
    unfold recordAll at h
    rcases recordTranscript_cases writer log p (notLink p List.mem_cons_self) with
      ⟨why, stopped, hrun, hgrew⟩ | ⟨mid, hrun⟩ | ⟨message, stopped, hrun, -⟩
    · rw [hrun] at h
      cases h
      exact hgrew _
    · rw [hrun] at h
      obtain ⟨locus, hfirst⟩ := recordTranscript_committed hrun
      exact .cons hfirst (ih notLink' h)
    · rw [hrun] at h
      cases h
      exact absurd rfl (alive message)

/-- A log that committed everything wrote all of it. -/
theorem recordAll_committed {ps : List Transcript} {log log' : AgentLog}
    (h : log.recordAll writer ps = (.committed, log')) :
    log'.id = log.id ∧ ∃ records, records.map Recorded.value = ps ∧
      log'.written = log.written ++ records ∧ log.context.replay records = .ok log'.context := by
  induction ps generalizing log with
  | nil =>
    cases h
    exact ⟨rfl, [], rfl, by simp, rfl⟩
  | cons p ps ih =>
    unfold recordAll at h
    cases hrun : log.recordTranscript writer p with
    | mk out mid =>
      rw [hrun] at h
      cases out with
      | committed =>
        obtain ⟨hid, records, hps, hwritten, hreplay⟩ := ih h
        obtain ⟨locus, hfirst⟩ := recordTranscript_committed hrun
        refine ⟨hid.trans hfirst.id, ⟨locus, p⟩ :: records, by simp [hps], ?_, ?_⟩
        · rw [hwritten, hfirst.written, List.append_assoc]
          rfl
        · exact Context.replay_cons.mpr ⟨mid.context, hfirst.step, hreplay⟩
      | refused why => cases h
      | unavailable why => cases h
      | panicked message => cases h

end AgentLog

/-! ## Reachable logs -/

/-- No id twice among the calls of one message. -/
def Operation.Distinct : Operation → Prop
  | .appendAssistant _ ids _ => ids.Nodup
  | _ => True

/-- Logs opened, run by operations `allowed` where they are, and opened again, with no panic. -/
inductive AgentLog.Reached [Host] (writer : Writer) (allowed : AgentLog → Operation → Prop) :
    AgentLog → Prop
  | created {id : AgentId} {inherited : Option Inherited} {system : String} {log : AgentLog}
      (opened : AgentLog.create writer id inherited system = (.committed, log)) :
    Reached writer allowed log
  | ran {log log' : AgentLog} {op : Operation} {out : Outcome}
      (before : Reached writer allowed log) (may : allowed log op)
      (run : op.run writer log = (out, log')) (alive : ∀ message, out ≠ .panicked message) :
    Reached writer allowed log'
  | reopened {log log' : AgentLog} {system : String} {out : Outcome}
      (before : Reached writer allowed log)
      (run : AgentLog.reopen writer log.id log.written system = .ok (out, log'))
      (alive : ∀ message, out ≠ .panicked message) :
    Reached writer allowed log'

/-- Every operation settles, a quiesce leaves the context ready, and the log reopens ready. -/
structure AgentLog.Live [Host] (log : AgentLog) : Prop where
  settles : ∀ (writer : Writer) (op : Operation), log.Settles (op.run writer log)
  quiesces : ∀ writer reason log', log.quiesce writer reason = (.committed, log') →
    log'.context.isReady
  reopens : ∀ writer system, ∃ out log',
    AgentLog.reopen writer log.id log.written system = .ok (out, log') ∧
      (∀ message, out ≠ .panicked message) ∧ (out = .committed → log'.context.isReady)

namespace Operation

theorem mem_quiesceRecords {state : State} {reason : QuiesceReason} {turn : ℕ} {p : Transcript}
    (h : p ∈ quiesceRecords state reason turn) :
    (∃ ids, p = unrunResults ids) ∨ p = capstone turn := by
  unfold quiesceRecords at h
  dsimp only at h
  rcases List.mem_append.mp h with h | h
  · left
    cases state with
    | awaitingToolResults ids => exact ⟨ids, List.mem_singleton.mp h⟩
    | readyForUser => cases h
    | awaitingAssistantAfterUser => cases h
    | awaitingAssistantAfterToolResults => cases h
  · right
    have hone : ∀ (owed : Prop) [Decidable owed],
        p ∈ (if owed then [capstone turn] else []) → p = capstone turn := by
      intro owed _ hp
      split at hp
      · exact List.mem_singleton.mp hp
      · cases hp
    exact hone _ h

theorem Writes.notLink {c : Context} {op : Operation} {ps : List Transcript} (h : op.Writes c ps) :
    ∀ p ∈ ps, ∀ turns evictions, p ≠ .inherited turns evictions := by
  intro p hp turns evictions heq
  subst heq
  cases h with
  | quiesce =>
    rcases mem_quiesceRecords hp with ⟨ids, h⟩ | h <;> cases h
  | _ =>
    have hp := List.mem_singleton.mp hp
    cases hp

theorem Writes.distinct {c : Context} {op : Operation} {ps : List Transcript} (h : op.Writes c ps)
    (may : op.Distinct) : ∀ p ∈ ps, ∀ turn message ids stopReason,
      p = .assistantMessage turn message ids stopReason → ids.Nodup := by
  intro p hp turn message ids stopReason heq
  subst heq
  cases h with
  | assistant =>
    have hp := List.mem_singleton.mp hp
    cases hp
    exact may
  | quiesce =>
    rcases mem_quiesceRecords hp with ⟨ids, h⟩ | h
    · cases h
    · cases h
      exact List.nodup_nil
  | _ =>
    have hp := List.mem_singleton.mp hp
    cases hp

end Operation

namespace Context

theorem quiesce_rests (state : State) (reason : QuiesceReason) (turn : ℕ) :
    ((quiesceRecords state reason turn).foldl State.advance state).admitsNewTurn := by
  cases state <;> cases reason <;> rfl

def Filed (p : Transcript) : Prop :=
  Extends p ∨ ∃ id role kind label, Opens p id role kind label

variable [Host]

theorem state_of_filed {c c' : Context} {r : Recorded Transcript}
    (h : c.stepTranscript r = .ok c') (filed : Filed r.value) :
    c'.state = c.state.advance r.value := by
  obtain ⟨locus, p⟩ := r
  rcases filed with adds | ⟨id, role, kind, label, opens⟩
  · exact (state_of_extends h adds).1
  · have hchange := change_of_step h
    cases hchange with
    | system => cases opens
    | link => cases opens
    | evict => cases opens
    | withdraw edit => rcases edit with rfl | ⟨rfl, -⟩ <;> cases opens
    | opened => rfl
    | extended adds => cases adds <;> cases opens
    | adrift legal adds => cases adds <;> cases opens

theorem state_of_replay {c c' : Context} {records : List (Recorded Transcript)}
    (filed : ∀ r ∈ records, Filed r.value) (h : c.replay records = .ok c') :
    c'.state = (records.map Recorded.value).foldl State.advance c.state := by
  induction records generalizing c with
  | nil =>
    cases h
    rfl
  | cons r records ih =>
    obtain ⟨next, hstep, hrest⟩ := replay_cons.mp h
    rw [ih (fun x hx => filed x (List.mem_cons_of_mem _ hx)) hrest,
      state_of_filed hstep (filed r List.mem_cons_self)]
    rfl

omit [Host] in
theorem pending_of_ready {state : State} (h : state.admitsNewTurn) : state.pending = [] := by
  cases state <;> simp [State.admitsNewTurn, State.pending] at h ⊢

/-- Distinct calls stay distinct while they are awaited. -/
theorem Change.pending_nodup {c c' : Context} {r : Recorded Transcript} (h : Change c r c')
    (rested : c.Rested) (distinct : c.state.pending.Nodup)
    (calls : ∀ turn message ids stopReason,
      r.value = .assistantMessage turn message ids stopReason → ids.Nodup) :
    c'.state.pending.Nodup := by
  cases h with
  | system => exact distinct
  | link => exact distinct
  | evict => exact distinct
  | withdraw edit ready uncut =>
    rw [show (Context.mk _ (c.withdraw _).state _ _ _).state.pending = [] from
      pending_of_ready (withdraw_ready rested ready _)]
    exact List.nodup_nil
  | @opened r id bytes role kind label opens legal fresh =>
    obtain ⟨locus, p⟩ := r
    cases opens with
    | prompt => exact List.nodup_nil
    | note => exact distinct
    | reply id message ids stopReason =>
      have hids := calls _ _ _ _ rfl
      show (State.pending (if ids = [] then _ else _)).Nodup
      split
      · exact List.nodup_nil
      · exact hids
  | extended adds => 
    rw [pending_of_ready (advance_extends adds _)]
    exact List.nodup_nil
  | adrift legal adds =>
    rw [pending_of_ready (advance_extends adds _)]
    exact List.nodup_nil

end Context

namespace AgentLog

variable [Host] {writer : Writer} {allowed : AgentLog → Operation → Prop} {log : AgentLog}

def Folded (log : AgentLog) : Prop := (Context.new log.id).replay log.written = .ok log.context

theorem Grew.folded {log' : AgentLog} {ps : List Transcript} (h : log.Grew ps log')
    (folded : log.Folded) : log'.Folded := by
  obtain ⟨hid, records, -, hwritten, hreplay⟩ := h
  unfold Folded
  rw [hid, hwritten]
  exact Context.replay_append.mpr ⟨log.context, folded, hreplay⟩

theorem run_grew {log' : AgentLog} {op : Operation} {out : Outcome}
    (run : op.run writer log = (out, log')) (alive : ∀ message, out ≠ .panicked message) :
    ∃ ps, log.Grew ps log' ∧ (ps = [] ∨ op.Writes log.context ps) := by
  rcases op.run_cases writer log with ⟨why, h⟩ | ⟨why, h⟩ | ⟨ps, hwrites, h⟩
  · rw [h] at run
    cases run
    exact ⟨[], .refl _ _, Or.inl rfl⟩
  · rw [h] at run
    cases run
    exact ⟨[], .refl _ _, Or.inl rfl⟩
  · rw [h] at run
    exact ⟨ps, recordAll_grew hwrites.notLink run alive, Or.inr hwrites⟩

/-- Opening a log again folds it to where it was, and writes what a quiesce owes and then the
system prompt. -/
theorem reopen_grew {log' : AgentLog} {system : String} {out : Outcome} (folded : log.Folded)
    (run : AgentLog.reopen writer log.id log.written system = .ok (out, log'))
    (alive : ∀ message, out ≠ .panicked message) :
    ∃ mid, log.Grew (quiesceRecords log.context.state .aborted log.context.nextId) mid ∧
      mid.Grew [.system system] log' := by
  unfold reopen at run
  rw [show (Context.new log.id).replay log.written = .ok log.context from folded] at run
  have hprompt : ∀ mid : AgentLog, log.Grew (quiesceRecords log.context.state .aborted
      log.context.nextId) mid →
      (if system ≠ mid.context.system then mid.recordTranscript writer (.system system)
        else (.committed, mid)) = (out, log') →
      ∃ mid, log.Grew (quiesceRecords log.context.state .aborted log.context.nextId) mid ∧
        mid.Grew [.system system] log' := by
    intro mid hmid h
    split at h
    · rw [← Operation.recordAll_singleton] at h
      exact ⟨mid, hmid, recordAll_grew (by simp) h alive⟩
    · cases h
      exact ⟨_, hmid, .refl _ _⟩
  have hrun := Except.ok.inj run
  by_cases ready : log.context.isReady
  · rw [if_pos ready] at hrun
    exact hprompt ⟨log.id, log.context, log.written, none⟩
      ⟨rfl, [], List.nil_prefix, by simp, rfl⟩ hrun
  · rw [if_neg ready] at hrun
    have hwrites : (Operation.quiesce .aborted).Writes log.context _ := .quiesce
    cases hq : quiesce writer .aborted ⟨log.id, log.context, log.written, none⟩ with
    | mk stopped mid =>
      rw [hq] at hrun
      have hgrew : (∀ message, stopped ≠ .panicked message) →
          log.Grew (quiesceRecords log.context.state .aborted log.context.nextId) mid := by
        intro halive
        have hgrew : AgentLog.Grew ⟨log.id, log.context, log.written, none⟩ _ mid :=
          recordAll_grew hwrites.notLink hq halive
        exact hgrew
      cases stopped with
      | committed => exact hprompt mid (hgrew (by simp)) hrun
      | refused why =>
        cases hrun
        exact ⟨log', hgrew alive, .refl _ _⟩
      | unavailable why =>
        cases hrun
        exact ⟨log', hgrew alive, .refl _ _⟩
      | panicked message =>
        cases hrun
        exact absurd rfl (alive message)

theorem create_grew {id : AgentId} {inherited : Option Inherited} {system : String}
    (opened : AgentLog.create writer id inherited system = (.committed, log)) :
    (AgentLog.mk id (.new id) [] none).Grew
      ((inherited.map fun i => Transcript.inherited i.turns i.evictions).toList ++
        [.system system]) log := by
  obtain ⟨hid, records, hps, hwritten, hreplay⟩ := recordAll_committed opened
  exact ⟨hid, records, by simp [hps], hwritten, hreplay⟩

theorem Reached.folded (h : Reached writer allowed log) : log.Folded := by
  induction h with
  | created opened => exact (create_grew opened).folded rfl
  | ran before may run alive ih =>
    obtain ⟨ps, hgrew, -⟩ := run_grew run alive
    exact hgrew.folded ih
  | reopened before run alive ih =>
    obtain ⟨mid, hquiesced, hprompted⟩ := reopen_grew ih run alive
    exact hprompted.folded (hquiesced.folded ih)

theorem Folded.invariant {P : Context → Prop} (h : log.Folded)
    (init : P (.new log.id)) (step : ∀ {c c' : Context} {r : Recorded Transcript},
      P c → Context.Change c r c' → P c') : P log.context :=
  Context.replay_invariant (Q := fun _ => True) (fun hc _ hchange => step hc hchange)
    (fun _ _ => trivial) init h

theorem Folded.rested (h : log.Folded) : log.context.Rested := by
  have hboth := h.invariant (P := fun c => c.Blank ∧ c.Rested)
    ⟨Context.new_blank _, Context.new_rested _⟩
    fun hc hchange => ⟨hchange.blank, hchange.rested hc.1 hc.2⟩
  exact hboth.2

def Calls (p : Transcript) : Prop :=
  ∀ turn message ids stopReason, p = .assistantMessage turn message ids stopReason → ids.Nodup

theorem replay_pending_nodup {c c' : Context} {records : List (Recorded Transcript)}
    (calls : ∀ r ∈ records, Calls r.value) (blank : c.Blank) (rested : c.Rested)
    (distinct : c.state.pending.Nodup) (h : c.replay records = .ok c') :
    c'.state.pending.Nodup := by
  have hkept := Context.replay_invariant
    (P := fun c => c.Blank ∧ c.Rested ∧ c.state.pending.Nodup) (fun hc hr hchange =>
      ⟨hchange.blank, hchange.rested hc.1 hc.2.1, hchange.pending_nodup hc.2.1 hc.2.2 hr⟩)
    calls ⟨blank, rested, distinct⟩ h
  exact hkept.2.2

theorem Folded.blank (h : log.Folded) : log.context.Blank :=
  h.invariant (Context.new_blank _) fun _ hchange => hchange.blank

theorem Grew.pending_nodup {log' : AgentLog} {ps : List Transcript} (h : log.Grew ps log')
    (folded : log.Folded) (calls : ∀ p ∈ ps, Calls p) (distinct : log.context.state.pending.Nodup) :
    log'.context.state.pending.Nodup := by
  obtain ⟨-, records, hps, -, hreplay⟩ := h
  have hcalls : ∀ r ∈ records, Calls r.value :=
    fun r hr => calls r.value (hps.subset (List.mem_map_of_mem hr))
  exact replay_pending_nodup hcalls folded.blank folded.rested distinct hreplay

/-- In a run of messages with distinct calls no id is ever awaited twice. -/
theorem Reached.distinct (h : Reached writer (fun _ => Operation.Distinct) log) :
    log.context.state.pending.Nodup := by
  induction h with
  | @created id inherited system log opened =>
    apply (create_grew opened).pending_nodup rfl _ List.nodup_nil
    intro p hp turn message ids stopReason heq
    subst heq
    cases inherited <;> simp at hp
  | @ran log log' op out before may run alive ih =>
    obtain ⟨ps, hgrew, hwrites⟩ := run_grew run alive
    apply hgrew.pending_nodup before.folded _ ih
    intro p hp
    rcases hwrites with rfl | hwrites
    · cases hp
    · exact hwrites.distinct may p hp
  | @reopened log log' system out before run alive ih =>
    obtain ⟨mid, hquiesced, hprompted⟩ := reopen_grew before.folded run alive
    have hwrites : (Operation.quiesce .aborted).Writes log.context _ := .quiesce
    have hmid := hquiesced.pending_nodup before.folded (hwrites.distinct trivial) ih
    apply hprompted.pending_nodup (hquiesced.folded before.folded) _ hmid
    intro p hp turn message ids stopReason heq
    rw [heq] at hp
    cases List.mem_singleton.mp hp

theorem quiesce_ready {log' : AgentLog} {reason : QuiesceReason}
    (h : log.quiesce writer reason = (.committed, log')) : log'.context.isReady := by
  obtain ⟨-, records, hps, -, hreplay⟩ := recordAll_committed h
  have hfiled : ∀ r ∈ records, Context.Filed r.value := by
    intro r hr
    have hmem : r.value ∈ records.map Recorded.value := List.mem_map_of_mem hr
    rw [hps] at hmem
    rcases Operation.mem_quiesceRecords hmem with ⟨ids, heq⟩ | heq
    · rw [heq]
      exact Or.inl (.results _)
    · rw [heq]
      exact Or.inr ⟨_, _, _, _, .reply _ _ _ _⟩
  have hstate := Context.state_of_replay hfiled hreplay
  unfold Context.isReady
  rw [hstate, hps]
  exact Context.quiesce_rests _ _ _

theorem settles_of_distinct (folded : log.Folded) (room : log.context.idFloor < u64Max)
    (distinct : log.context.state.pending.Nodup) (writer : Writer) (op : Operation) :
    log.Settles (op.run writer log) := by
  rcases op.run_cases writer log with ⟨why, h⟩ | ⟨why, h⟩ | ⟨ps, hwrites, h⟩
  · rw [h]
    exact ⟨by simp, fun _ _ => rfl, [], .refl _ _⟩
  · rw [h]
    exact ⟨by simp, fun _ _ => rfl, [], .refl _ _⟩
  · rw [h]
    exact recordAll_settles writer (Context.writes_admitted folded.rested room distinct hwrites)

/-- The system prompt is always admitted, and moves nothing. -/
theorem recordTranscript_system (writer : Writer) (log : AgentLog) (system : String) :
    ∃ out log', log.recordTranscript writer (.system system) = (out, log') ∧
      (∀ message, out ≠ .panicked message) ∧
      (out = .committed → log'.context.state = log.context.state) := by
  rcases recordTranscript_cases writer log (.system system) (by simp) with
    ⟨why, log', h, -⟩ | ⟨log', h⟩ | ⟨message, log', -, hbad⟩
  · exact ⟨_, _, h, by simp, by simp⟩
  · refine ⟨_, _, h, by simp, ?_⟩
    intro _
    obtain ⟨locus, hwrote⟩ := recordTranscript_committed h
    have hchange := Context.change_of_step hwrote.step
    generalize log'.context = c at hchange
    cases hchange with
    | system => rfl
    | withdraw edit => rcases edit with h | ⟨h, -⟩ <;> cases h
    | opened opens => cases opens
    | extended adds => cases adds
    | adrift legal adds => cases adds
  · apply absurd _ hbad
    rw [Context.judge_eq_none]
    exact ⟨rfl, by simp [Context.opens], rfl, by simp [Context.extended]⟩

theorem reopen_ready (folded : log.Folded) (room : log.context.idFloor < u64Max)
    (distinct : log.context.state.pending.Nodup) (writer : Writer) (system : String) :
    ∃ out log', AgentLog.reopen writer log.id log.written system = .ok (out, log') ∧
      (∀ message, out ≠ .panicked message) ∧ (out = .committed → log'.context.isReady) := by
  have hprompt : ∀ mid : AgentLog, mid.context.isReady → ∃ out log',
      (if system ≠ mid.context.system then mid.recordTranscript writer (.system system)
        else (.committed, mid)) = (out, log') ∧
      (∀ message, out ≠ .panicked message) ∧ (out = .committed → log'.context.isReady) := by
    intro mid hready
    split
    · obtain ⟨out, log', h, halive, hstate⟩ := recordTranscript_system writer mid system
      refine ⟨out, log', h, halive, ?_⟩
      intro hout
      unfold Context.isReady
      rw [hstate hout]
      exact hready
    · exact ⟨_, _, rfl, by simp, fun _ => hready⟩
  unfold reopen
  rw [show (Context.new log.id).replay log.written = .ok log.context from folded]
  dsimp only
  by_cases ready : log.context.isReady
  · rw [if_pos ready]
    obtain ⟨out, log', h, halive⟩ := hprompt ⟨log.id, log.context, log.written, none⟩ ready
    exact ⟨out, log', congrArg Except.ok h, halive⟩
  · rw [if_neg ready]
    have hsettles : Settles ⟨log.id, log.context, log.written, none⟩
        (quiesce writer .aborted ⟨log.id, log.context, log.written, none⟩) :=
      recordAll_settles writer (Context.quiesce_admitted folded.rested room distinct _)
    cases hq : quiesce writer .aborted ⟨log.id, log.context, log.written, none⟩ with
    | mk out mid =>
      rw [hq] at hsettles
      cases out with
      | committed =>
        obtain ⟨out, log', h, halive⟩ := hprompt mid (quiesce_ready hq)
        exact ⟨out, log', congrArg Except.ok h, halive⟩
      | refused why => exact ⟨_, _, rfl, hsettles.alive, by simp⟩
      | unavailable why => exact ⟨_, _, rfl, hsettles.alive, by simp⟩
      | panicked message => exact ⟨_, _, rfl, hsettles.alive, by simp⟩

omit [Host] in
/-- Calls awaited under one id twice are never answered: what a quiesce writes for them is
refused. -/
theorem judge_unrun_repeated {c : Context} {ids : List String} {n : ℕ}
    (awaits : c.state = .awaitingToolResults ids) (repeated : ¬ ids.Nodup) :
    c.judge n (unrunResults ids) ≠ none := by
  intro h
  have hlegal := (Context.judge_eq_none.mp h).1
  unfold unrunResults admissible at hlegal
  rw [awaits] at hlegal
  exact repeated (validateResultIds_ok.mp hlegal).1

theorem live_of_distinct (folded : log.Folded) (room : log.context.idFloor < u64Max)
    (distinct : log.context.state.pending.Nodup) : log.Live :=
  ⟨settles_of_distinct folded room distinct, fun _ _ _ h => quiesce_ready h,
    reopen_ready folded room distinct⟩

theorem distinct_of_live (folded : log.Folded) (live : log.Live) :
    log.context.state.pending.Nodup := by
  by_contra repeated
  cases hs : log.context.state with
  | awaitingToolResults ids =>
    rw [hs] at repeated
    -- A writer that never fails: what it writes is what the judge refuses.
    let writer : Writer := fun _ _ => .ok ⟨⟨1, 0⟩, ⟨0, 1⟩, ⟨0, by decide⟩⟩
    obtain ⟨out, log', hreopen, halive, -⟩ := live.reopens writer log.context.system
    have hnotReady : log.context.isReady = false := by
      unfold Context.isReady
      rw [hs]
      rfl
    have hjudge : log.context.judge (log.context.len + 1) (unrunResults ids) ≠ none :=
      judge_unrun_repeated hs repeated
    cases hj : log.context.judge (log.context.len + 1) (unrunResults ids) with
    | none => exact hjudge hj
    | some reason =>
      have hstep : log.context.stepTranscript
          ⟨⟨⟨1, 0⟩, ⟨0, 1⟩, ⟨0, by decide⟩⟩, unrunResults ids⟩ =
          .error (.foreign (unrunResults ids) reason) := by
        unfold Context.stepTranscript
        rw [hj]
      have hrecords : quiesceRecords log.context.state .aborted log.context.nextId =
          [unrunResults ids] := by
        rw [hs]
        rfl
      unfold reopen at hreopen
      rw [show (Context.new log.id).replay log.written = .ok log.context from folded] at hreopen
      dsimp only at hreopen
      rw [if_neg (by simp [hnotReady])] at hreopen
      unfold quiesce at hreopen
      dsimp only at hreopen
      rw [hrecords, Operation.recordAll_singleton] at hreopen
      unfold recordTranscript emit at hreopen
      simp only [writer, hstep] at hreopen
      cases hreopen
      exact halive _ rfl
  | readyForUser =>
    rw [hs] at repeated
    exact repeated List.nodup_nil
  | awaitingAssistantAfterUser =>
    rw [hs] at repeated
    exact repeated List.nodup_nil
  | awaitingAssistantAfterToolResults =>
    rw [hs] at repeated
    exact repeated List.nodup_nil

/-- Run on messages whose calls are distinct, a log never writes what its fold refuses, and a
quiesce always leaves it ready to go on. On any run the one hindrance is a batch outstanding
under one id twice. -/
theorem live_admission_never_fails :
    (∀ {writer : Writer} {log : AgentLog}, Reached writer (fun _ => Operation.Distinct) log →
      log.context.idFloor < u64Max → log.Live) ∧
    ∀ {writer : Writer} {allowed : AgentLog → Operation → Prop} {log : AgentLog},
      Reached writer allowed log → log.context.idFloor < u64Max →
        (log.Live ↔ log.context.state.pending.Nodup) := by
  constructor
  · intro writer log reached room
    exact live_of_distinct reached.folded room reached.distinct
  · intro writer allowed log reached room
    exact ⟨distinct_of_live reached.folded, live_of_distinct reached.folded room⟩

end AgentLog

/-! ## One id twice -/

namespace AgentLog

/-- A writer that never fails. -/
def steadyWriter : Writer := fun _ _ => .ok ⟨⟨1, 0⟩, ⟨0, 1⟩, ⟨0, Record.Sum.zero_lt⟩⟩

def awaiting [Host] (ids : List String) : AgentLog :=
  let opened := (AgentLog.create steadyWriter 1 none "").2
  let prompted := (opened.appendUser steadyWriter "go" none .human).2
  (prompted.appendAssistant steadyWriter (.assistant "calling") ids none).2

theorem Reached.next [Host] {writer : Writer} {allowed : AgentLog → Operation → Prop}
    {log : AgentLog} {op : Operation} (before : Reached writer allowed log) (may : allowed log op)
    (commits : (op.run writer log).1 = .committed) :
    Reached writer allowed (op.run writer log).2 :=
  .ran before may Prod.mk.eta.symm (by simp [commits])

theorem awaiting_reached [Host] {allowed : AgentLog → Operation → Prop} {ids : List String}
    (may : ∀ log text, allowed log (.appendUser text none .human))
    (mayCall : ∀ log, allowed log (.appendAssistant (.assistant "calling") ids none)) :
    Reached steadyWriter allowed (awaiting ids) := by
  have hopened : Reached steadyWriter allowed (AgentLog.create steadyWriter 1 none "").2 :=
    .created (show AgentLog.create steadyWriter 1 none "" = (.committed, _) from rfl)
  exact (hopened.next (may _ "go") rfl).next (mayCall _) rfl

/-- Calls sent twice under one id: the results the quiesce writes for them panic the fold. -/
theorem repeated_calls_panic : ∃ (_ : Host) (log : AgentLog),
    Reached steadyWriter (fun _ _ => True) log ∧ log.context.idFloor < u64Max ∧ ¬ log.Live ∧
      ∃ message log', log.quiesce steadyWriter .aborted = (.panicked message, log') := by
  have hquiesce : ∃ message log', @quiesce Context.fileless steadyWriter .aborted
      (@awaiting Context.fileless ["a", "a"]) = (.panicked message, log') := ⟨_, _, rfl⟩
  refine ⟨Context.fileless, @awaiting Context.fileless ["a", "a"], ?_, by decide, ?_, hquiesce⟩
  · exact @awaiting_reached Context.fileless _ _ (fun _ _ => trivial) fun _ => trivial
  · intro live
    obtain ⟨message, log', h⟩ := hquiesce
    have hsettles := @Live.settles Context.fileless _ live steadyWriter (.quiesce .aborted)
    exact @Settles.alive Context.fileless _ _ hsettles message (congrArg Prod.fst h)

/-- One call in the reply: the log is live, and its quiesce answers it. -/
theorem live_admission_never_fails_one_call : ∃ (_ : Host) (log : AgentLog),
    log.context.state = .awaitingToolResults ["a"] ∧ log.Live := by
  refine ⟨Context.fileless, @awaiting Context.fileless ["a"], rfl, ?_⟩
  exact (@live_admission_never_fails Context.fileless).1
    (@awaiting_reached Context.fileless _ _ (fun _ _ => trivial)
      fun _ => List.nodup_singleton "a")
    (by decide)

end AgentLog

end Ral.Session
