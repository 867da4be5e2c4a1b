import Ral.Session.Pairing

/-! # Evictions that stand

The logs of a session and of its forks, whatever was asked of them. In the context of any, an
eviction whose last turn has been withdrawn is withdrawn with it.
-/

namespace Ral.Session
open Ral.Record (Recorded Locus)

namespace Ledger

/-- An eviction's last turn is withdrawn only with its first. -/
def Ended (l : Ledger) : Prop := ∀ s ∈ l.spans, l.gone s.snd → l.gone s.fst

theorem Ended.empty : Ended ⟨[], []⟩ := by
  intro s hs
  simp [spans] at hs

variable {l : Ledger}

theorem Ended.open (h : l.Ended) (id : ℕ) : (l.openTurn id).Ended := by
  have hgone : (l.openTurn id).gone = l.gone := by
    funext i
    simp [gone, openTurn]
  intro s hs
  rw [hgone]
  exact h s hs

theorem Ended.evict (h : l.Ended) (sound : l.Sound) {span : Span} (ok : l.Evictable span) :
    (l.evict span).Ended := by
  intro s hs
  rw [evict_gone]
  rw [evict_spans] at hs
  rcases List.mem_append.mp hs with hs | hs
  · exact h s hs
  · obtain ⟨hi, hhi, hiw⟩ := ok.closes
    rw [List.mem_singleton.mp hs, sound.not_gone hhi hiw]
    simp

theorem Ended.withdraw (h : l.Ended) (sound : l.Sound) {lo : ℕ}
    (uncut : ∀ s ∈ l.spans, ¬ (s.fst < lo ∧ lo ≤ s.snd)) : (l.withdraw lo).Ended := by
  have hspans : (l.withdraw lo).spans = l.spans := depart_spans _ _ _
  intro s hs
  rw [hspans] at hs
  have hcut := uncut s hs
  rw [withdraw_gone l lo s.snd (sound.carried s hs).2,
    withdraw_gone l lo s.fst (sound.carried s hs).1]
  simp only [Bool.or_eq_true, decide_eq_true_eq]
  intro hg
  rcases hg with hg | hg
  · exact Or.inl (h s hs hg)
  · right
    omega

theorem gone_of_stamped {gone : ℕ → Bool} {made : List Span} {x : Span × Location}
    (hx : x ∈ stampAll gone made) (resident : x.2 = .resident) : gone x.1.fst = false := by
  induction made with
  | nil => simp [stampAll] at hx
  | cons s later ih =>
    rcases List.mem_cons.mp hx with rfl | hx
    · cases hg : gone s.fst with
      | false => rfl
      | true => simp [stamp, hg] at resident
    · exact ih hx

theorem exists_of_not_gone {id : ℕ} (hid : id ∈ l.ids) (hg : l.gone id = false) :
    ∃ loc, (id, loc) ∈ l.turns ∧ loc ≠ .withdrawn := by
  obtain ⟨x, hx, rfl⟩ := mem_ids.mp hid
  refine ⟨x.2, hx, ?_⟩
  intro hw
  have : (x.1, Location.withdrawn) ∈ l.turns := hw ▸ hx
  simp [gone, this] at hg

end Ledger

/-- A link's eviction whose last row is withdrawn opens at a withdrawn row. -/
def Transcript.Ended (p : Transcript) : Prop :=
  ∀ turns evictions, p = .inherited turns evictions → ∀ e ∈ evictions,
    let rows := turns.map fun l => (l.row.id, l.row.location)
    (e.span.snd, Location.withdrawn) ∈ rows → (e.span.fst, Location.withdrawn) ∈ rows

theorem Transcript.ended_of_plain {p : Transcript}
    (plain : ∀ turns evictions, p ≠ .inherited turns evictions) : p.Ended :=
  fun turns evictions h => absurd h (plain turns evictions)

namespace Context
variable [Host]

theorem ended_installed {turns : List Linked} {evictions : List Eviction}
    (ended : (Transcript.inherited turns evictions).Ended) (sound : SoundLink turns evictions)
    {table table' : Table} {seeds : List (List (Recorded Transcript))}
    (installed : table.install turns evictions seeds = some table') : table'.ledger.Ended := by
  obtain ⟨hturns, hevictions⟩ := Table.install_ledger sound.ordered installed
  have hspans : table'.ledger.spans = evictions.map Eviction.span := by
    simp only [Ledger.spans, hevictions, Ledger.stampAll_spans]
  unfold Ledger.Ended Ledger.gone
  rw [hspans, hturns, List.forall_mem_map]
  intro e he
  simpa only [decide_eq_true_eq] using ended _ _ rfl e he

/-- Every change keeps the ends of the evictions together. -/
theorem Change.ended {c c' : Context} {r : Recorded Transcript} (h : Change c r c')
    (sound : c.table.ledger.Sound) (ended : c.table.ledger.Ended) (link : r.value.Ended) :
    c'.table.ledger.Ended := by
  cases h with
  | system => exact ended
  | link first soundLink read installed => exact ended_installed link soundLink installed
  | evict evictable =>
    show (c.table.evict _).ledger.Ended
    rw [Table.ledger_evict]
    exact ended.evict sound (evictable.ledger sound)
  | withdraw edit ready uncut =>
    show (c.table.withdraw _).ledger.Ended
    rw [Table.ledger_withdraw]
    apply ended.withdraw sound
    rwa [Table.ledger_spans]
  | opened opens legal fresh =>
    rw [ledger_opened]
    exact ended.open _
  | extended adds legal newest here =>
    rw [ledger_extended newest here]
    exact ended
  | adrift => exact ended

omit [Host] in
theorem linked_ended {c : Context} (ended : c.table.ledger.Ended) :
    (Transcript.inherited c.linked c.evictions).Ended := by
  intro turns evictions heq e he
  cases heq
  have hrows : (c.linked.map fun l => (l.row.id, l.row.location)) = c.table.ledger.turns := by
    simp [linked, Turn.linked, Table.ledger]
  have hspan : e.span ∈ c.table.ledger.spans := by
    rw [Table.ledger_spans]
    obtain ⟨x, hx, rfl⟩ := List.mem_map.mp he
    exact List.mem_map_of_mem hx
  simpa only [hrows, Ledger.gone, decide_eq_true_eq] using ended e.span hspan

end Context

/-! ## Reachable logs -/

/-- The logs of a session and of its forks, each asked anything and opened again in any order. -/
inductive AgentLog.Reachable [Host] : AgentLog → Prop
  | root {writer : Writer} {id : AgentId} {system : String} {log : AgentLog}
      (opened : AgentLog.create writer id none system = (.committed, log)) : Reachable log
  | fork {writer : Writer} {parent log : AgentLog} {id : AgentId} {system : String}
      (of : Reachable parent)
      (opened : AgentLog.create writer id (some parent.inheritedContext) system =
        (.committed, log)) : Reachable log
  | ran {writer : Writer} {log log' : AgentLog} {op : Operation} {out : Outcome}
      (before : Reachable log) (run : op.run writer log = (out, log'))
      (alive : ∀ message, out ≠ .panicked message) : Reachable log'
  | reopened {writer : Writer} {log log' : AgentLog} {system : String} {out : Outcome}
      (before : Reachable log)
      (run : AgentLog.reopen writer log.id log.written system = .ok (out, log'))
      (alive : ∀ message, out ≠ .panicked message) : Reachable log'

section Reachable
variable [Host]

omit [Host] in
theorem Operation.Writes.ended {c : Context} {op : Operation} {ps : List Transcript}
    (h : op.Writes c ps) : ∀ p ∈ ps, p.InRange ∧ p.Ended := by
  have hnext := nextId_in_range c
  intro p hp
  refine ⟨?_, Transcript.ended_of_plain (h.notLink p hp)⟩
  cases h with
  | quiesce =>
    rcases mem_quiesceRecords hp with ⟨ids, rfl⟩ | rfl
    · simp [Transcript.InRange, Context.opens, unrunResults]
    · simp [Transcript.InRange, Context.opens, capstone, hnext]
  | _ =>
    rw [List.mem_singleton.mp hp]
    simp [Transcript.InRange, Context.opens, hnext]

namespace AgentLog

/-- A log that is its fold, of records whose links keep the ends of evictions together. -/
structure Founded (log : AgentLog) : Prop where
  folded : log.Folded
  ended : ∀ r ∈ log.written, r.value.InRange ∧ r.value.Ended

theorem Grew.founded {log log' : AgentLog} {ps : List Transcript} (h : log.Grew ps log')
    (founded : log.Founded) (ended : ∀ p ∈ ps, p.InRange ∧ p.Ended) : log'.Founded := by
  refine ⟨h.folded founded.folded, ?_⟩
  obtain ⟨-, records, hps, hwritten, -⟩ := h
  rw [hwritten]
  intro r hr
  rcases List.mem_append.mp hr with hr | hr
  · exact founded.ended r hr
  · exact ended r.value (hps.subset (List.mem_map_of_mem hr))

theorem Founded.holds {log : AgentLog} (founded : log.Founded) :
    log.context.table.ledger.Sound ∧ log.context.table.ledger.Ended :=
  Context.replay_invariant
    (P := fun c => c.table.ledger.Sound ∧ c.table.ledger.Ended)
    (Q := fun r => r.value.InRange ∧ r.value.Ended)
    (fun hc hr hchange => ⟨hchange.sound hc.1 hr.1, hchange.ended hc.1 hc.2 hr.2⟩)
    founded.ended ⟨Context.new_sound log.id, Ledger.Ended.empty⟩ founded.folded

theorem founded_new (id : AgentId) (failure : Option String) :
    (AgentLog.mk id (.new id) [] failure).Founded := ⟨rfl, by simp⟩

omit [Host] in
theorem ended_system (system : String) :
    ∀ p ∈ [Transcript.system system], p.InRange ∧ p.Ended := by
  intro p hp
  rw [List.mem_singleton.mp hp]
  exact ⟨by simp [Transcript.InRange, Context.opens], Transcript.ended_of_plain (by simp)⟩

theorem Founded.link_ended {parent : AgentLog} (founded : parent.Founded) :
    (Transcript.inherited parent.context.linked parent.context.evictions).InRange ∧
      (Transcript.inherited parent.context.linked parent.context.evictions).Ended := by
  obtain ⟨hsound, hended⟩ := founded.holds
  refine ⟨⟨by simp [Context.opens], ?_⟩, Context.linked_ended hended⟩
  intro turns evictions heq l hl
  cases heq
  obtain ⟨t, ht, rfl⟩ := List.mem_map.mp hl
  apply hsound.bounded t.id
  rw [Table.ledger_ids]
  exact List.mem_map_of_mem ht

theorem Reachable.founded {log : AgentLog} (h : Reachable log) : log.Founded := by
  induction h with
  | @root writer id system log opened =>
    exact (create_grew opened).founded (founded_new id none) (ended_system system)
  | @fork writer parent log id system of opened ih =>
    apply (create_grew opened).founded (founded_new id none)
    intro p hp
    rcases List.mem_cons.mp hp with rfl | hp
    · exact ih.link_ended
    · exact ended_system system p hp
  | ran before run alive ih =>
    obtain ⟨ps, hgrew, hwrites⟩ := run_grew run alive
    apply hgrew.founded ih
    rcases hwrites with rfl | hwrites
    · simp
    · exact hwrites.ended
  | @reopened writer log log' system out before run alive ih =>
    obtain ⟨mid, hquiesced, hprompted⟩ := reopen_grew ih.folded run alive
    have hwrites : (Operation.quiesce .aborted).Writes log.context _ := .quiesce
    exact hprompted.founded (hquiesced.founded ih hwrites.ended) (ended_system system)

end AgentLog

end Reachable

end Ral.Session
