import Ral.Core.Related
import Ral.Session.Attend

/-! # Forks

A fork opens on a link of its parent's turn table. The judge admits every link a parent makes,
and what the child installs from it is the parent's context, its unclosed turn cut short.
-/

namespace Ral.Session
open Ral.Record (Recorded Locus)

/-! ## What a turn's pointer reads back -/

namespace Turn

def origin (t : Turn) : Option Pointer :=
  match t.body with
  | .here _ origin => origin
  | .evicted _ _ => none
  | .withdrawn _ => none

theorem origin_depart (source : AgentId) (under : Option Span) (t : Turn) :
    (t.depart source under).origin = none := by
  cases t with
  | mk id role kind label bytes body => cases body <;> cases under <;> rfl

variable [Host]

def Held (source : AgentId) (records : List (Recorded Transcript)) : Prop :=
  ∀ r ∈ records, Host.record source r.locus = .ok (.transcript r.value)

/-- A resident turn's records are in the log, or are the prefix its ancestor's copy reads
back. -/
def Traced (source : AgentId) (t : Turn) : Prop :=
  match t.body with
  | .here records none => Held source records
  | .here records (some origin) =>
    ∃ full, Table.readPointer origin = .ok full ∧ records = cut full
  | .evicted _ _ => True
  | .withdrawn _ => True

theorem Traced.depart {source : AgentId} {t : Turn} (h : t.Traced source) (under : Option Span) :
    (t.depart source under).Traced source := by
  cases t with
  | mk id role kind label bytes body => cases body <;> cases under <;> trivial

theorem readPointer_of_held {source : AgentId} {records : List (Recorded Transcript)}
    (h : Held source records) :
    Table.readPointer ⟨source, records.map Recorded.locus⟩ = .ok records := by
  unfold Table.readPointer
  rw [Fallible.mapM_eq_ok, List.forall₂_map_left_iff, List.forall₂_same]
  intro r hr
  unfold Table.readAt
  rw [h r hr]
  rfl

theorem Traced.reads {source : AgentId} {t : Turn} (h : t.Traced source)
    (resident : t.location = .resident) :
    ∃ full, Table.readPointer (t.pointer source) = .ok full ∧ cut full = cut t.records := by
  obtain ⟨records, origin, hbody⟩ := here_of_resident resident
  unfold Traced at h
  simp only [hbody] at h
  simp only [pointer, Turn.records, hbody]
  cases origin with
  | none => exact ⟨records, readPointer_of_held h, rfl⟩
  | some origin =>
    obtain ⟨full, hread, rfl⟩ := h
    exact ⟨full, hread, (cut_of_closed (resting_cut full)).symm⟩

end Turn

namespace Context

variable [Host]

/-- Every resident turn is traced, and one inherited is the newest only at rest. -/
structure Kept (c : Context) : Prop where
  traced : ∀ t ∈ c.table.turns, t.Traced c.table.source
  settled : ∀ t, c.table.turns.getLast? = some t → t.origin ≠ none → c.state = .readyForUser

def OwnNewest (c : Context) : Prop := ∀ t, c.table.turns.getLast? = some t → t.origin = none

omit [Host] in
theorem OwnNewest.depart {c : Context} (own : c.OwnNewest) (leaving : Span → Prop)
    [DecidablePred leaving] (under : Option Span) {t : Turn}
    (h : (c.table.depart leaving under).turns.getLast? = some t) : t.origin = none := by
  simp only [Table.depart, List.getLast?_map, Option.map_eq_some_iff] at h
  obtain ⟨last, hlast, rfl⟩ := h
  split
  · exact Turn.origin_depart _ _ _
  · exact own last hlast

theorem Change.source {c c' : Context} {r : Recorded Transcript} (h : Change c r c') :
    c'.table.source = c.table.source := by
  cases h with
  | @link locus turns evictions seeds table first sound read installed =>
    unfold Table.install at installed
    rw [Option.map_eq_some_iff] at installed
    obtain ⟨rows, -, rfl⟩ := installed
    rfl
  | _ => rfl

theorem traced_of_installed {source : AgentId} {l : Linked} {t : Turn} (h : l.Installed t) :
    t.Traced source := by
  have hbody := h.holds
  unfold Linked.Holds at hbody
  unfold Turn.Traced
  cases hl : l.row.location with
  | resident =>
    simp only [hl] at hbody
    obtain ⟨records, hread, hb⟩ := hbody
    rw [hb]
    exact ⟨records, hread, rfl⟩
  | evicted under =>
    simp only [hl] at hbody
    rw [hbody]
    trivial
  | withdrawn =>
    simp only [hl] at hbody
    rw [hbody]
    trivial

theorem traced_of_forall₂ {source : AgentId} {rows : List Linked} {turns : List Turn}
    (h : List.Forall₂ Linked.Installed rows turns) : ∀ t ∈ turns, t.Traced source := by
  induction h with
  | nil => simp
  | cons hl _ ih =>
    rw [List.forall_mem_cons]
    exact ⟨traced_of_installed hl, ih⟩

theorem depart_traced {table : Table} (h : ∀ t ∈ table.turns, t.Traced table.source)
    (leaving : Span → Prop) [DecidablePred leaving] (under : Option Span) :
    ∀ t ∈ (table.depart leaving under).turns, t.Traced table.source := by
  simp only [Table.depart, List.forall_mem_map]
  intro t ht
  split
  · exact (h t ht).depart under
  · exact h t ht

omit [Host] in
theorem withdraw_newest {c : Context} (ordered : c.table.ledger.ids.Pairwise (· < ·)) {lo : ℕ}
    (recorded : lo = 0 ∨ ∃ t ∈ c.table.turns, t.id = lo) {t : Turn}
    (h : (c.withdraw lo).table.turns.getLast? = some t) : t.origin = none := by
  simp only [withdraw, Table.withdraw, Table.depart, List.getLast?_map,
    Option.map_eq_some_iff] at h
  obtain ⟨last, hlast, rfl⟩ := h
  have hreached : lo ≤ last.id := by
    rcases recorded with rfl | ⟨u, hu, rfl⟩
    · exact Nat.zero_le _
    · obtain ⟨init, hturns⟩ := List.getLast?_eq_some_iff.mp hlast
      rw [Table.ledger_ids, hturns, List.map_append, List.pairwise_append] at ordered
      rw [hturns] at hu
      rcases List.mem_append.mp hu with hu | hu
      · exact (ordered.2.2 u.id (List.mem_map_of_mem hu) last.id (by simp)).le
      · exact (List.mem_singleton.mp hu ▸ le_refl u.id)
  simp only [Span.single_fst, hreached, if_true]
  exact Turn.origin_depart _ _ _

/-- Every change keeps the turns traced, once its own record is in the log and steering never
lands on a turn inherited. -/
theorem Change.kept {c c' : Context} {r : Recorded Transcript} (h : Change c r c')
    (kept : c.Kept) (blank : c.Blank) (ordered : c.table.ledger.ids.Pairwise (· < ·))
    (held : Host.record c.table.source r.locus = .ok (.transcript r.value))
    (spares : ∀ text voice, r.value = .steering text voice → c.OwnNewest) : c'.Kept := by
  have hsource := h.source
  cases h with
  | system => exact ⟨kept.traced, kept.settled⟩
  | @link locus turns evictions seeds table first sound read installed =>
    obtain ⟨rows, hrows, hinstalled⟩ := installTurns_of_read read
    unfold Table.install at installed
    rw [hrows] at installed
    cases installed
    exact ⟨traced_of_forall₂ hinstalled, fun _ _ _ => (blank first).2.2⟩
  | @evict locus e evictable =>
    refine ⟨depart_traced kept.traced (fun span => span ≤ e.span) _, ?_⟩
    intro t ht hinherited
    simp only [Table.evict, Table.depart, List.getLast?_map, Option.map_eq_some_iff] at ht
    obtain ⟨last, hlast, rfl⟩ := ht
    split at hinherited
    · exact absurd (Turn.origin_depart _ _ _) hinherited
    · exact kept.settled last hlast hinherited
  | @withdraw locus p lo edit ready uncut recorded =>
    refine ⟨depart_traced kept.traced (fun span => lo ≤ span.fst) none, ?_⟩
    intro t ht hinherited
    exact absurd (withdraw_newest ordered recorded ht) hinherited
  | @opened r id bytes role kind label opens legal fresh =>
    constructor
    · intro t ht
      rcases List.mem_append.mp ht with ht | ht
      · exact kept.traced t ht
      · rw [List.mem_singleton.mp ht]
        intro s hs
        rw [List.mem_singleton.mp hs]
        exact held
    · intro t ht hinherited
      have hlast : t = ⟨id, role, kind, label, bytes, .here [r] none⟩ := by simpa using ht.symm
      rw [hlast] at hinherited
      exact absurd rfl hinherited
  | @extended r init last records origin bytes adds legal newest here =>
    have hlast : c.table.turns.getLast? = some last := by simp [newest]
    have hown : last.origin = none := by
      obtain ⟨locus, p⟩ := r
      cases adds with
      | steering text voice => exact spares text voice rfl last hlast
      | results results =>
        -- Results are awaited, so the protocol is not at rest.
        by_contra hinherited
        have hrest := kept.settled last hlast hinherited
        rw [hrest] at legal
        cases legal
    have horigin : origin = none := by
      unfold Turn.origin at hown
      simpa only [here] using hown
    subst horigin
    constructor
    · intro t ht
      rcases List.mem_append.mp ht with ht | ht
      · exact kept.traced t (by rw [newest]; exact List.mem_append_left _ ht)
      · rw [List.mem_singleton.mp ht]
        have hrecords := kept.traced last (by simp [newest])
        unfold Turn.Traced at hrecords
        simp only [here] at hrecords
        intro s hs
        rcases List.mem_append.mp hs with hs | hs
        · exact hrecords s hs
        · rw [List.mem_singleton.mp hs]
          exact held
    · intro t ht hinherited
      have hnewest : t = { last with bytes := bytes, body := .here (records ++ [r]) none } := by
        simpa using ht.symm
      rw [hnewest] at hinherited
      exact absurd rfl hinherited
  | adrift legal adds empty =>
    refine ⟨kept.traced, ?_⟩
    intro t ht
    simp [empty] at ht

/-- Short of a link, the newest turn stays the log's own. -/
theorem Change.ownNewest {c c' : Context} {r : Recorded Transcript} (h : Change c r c')
    (own : c.OwnNewest) (notLink : ∀ turns evictions, r.value ≠ .inherited turns evictions) :
    c'.OwnNewest := by
  cases h with
  | system => exact own
  | link => exact absurd rfl (notLink _ _)
  | @evict locus e evictable =>
    exact fun t ht => own.depart (fun span => span ≤ e.span) (some e.span) ht
  | @withdraw locus p lo => exact fun t ht => own.depart (fun span => lo ≤ span.fst) none ht
  | opened =>
    intro t ht
    rw [← (show _ = t by simpa using ht)]
    rfl
  | @extended r init last records origin bytes adds legal newest here =>
    intro t ht
    rw [← (show _ = t by simpa using ht)]
    have hlast := own last (by simp [newest])
    unfold Turn.origin at hlast
    show origin = none
    simpa only [here] using hlast
  | adrift => exact own

/-- A turn opened is the log's own. -/
theorem Change.ownNewest_opened {c c' : Context} {r : Recorded Transcript} (h : Change c r c') {id : ℕ}
    {role : Role} {kind : TurnKind} {label : String} (opens : Opens r.value id role kind label) : c'.OwnNewest := by
  obtain ⟨locus, p⟩ := r
  cases h with
  | system => cases opens
  | link => cases opens
  | evict => cases opens
  | withdraw edit => rcases edit with rfl | ⟨rfl, -⟩ <;> cases opens
  | opened =>
    intro t ht
    rw [← (show _ = t by simpa using ht)]
    rfl
  | extended adds => cases adds <;> cases opens
  | adrift legal adds => cases adds <;> cases opens

end Context

/-! ## Runs -/

/-- Steering is not sent to a turn inherited from an ancestor. -/
def Operation.Spares (log : AgentLog) : Operation → Prop
  | .appendUser _ (some id) _ => log.context.livePrompt = some id → log.context.OwnNewest
  | _ => True

namespace AgentLog

variable [Host] {writer : Writer} {log : AgentLog}

def Readable (log : AgentLog) : Prop := Turn.Held log.id log.written

def InRange (log : AgentLog) : Prop := ∀ r ∈ log.written, r.value.InRange

/-- What a fork of this log rests on. -/
structure Forkable (log : AgentLog) : Prop where
  source : log.context.table.source = log.id
  sound : log.context.table.ledger.Sound
  kept : log.context.Kept

theorem replay_forkable {log : AgentLog} {c : Context} {records : List (Recorded Transcript)}
    {P : Context → Prop} (blank : log.context.Blank) (h : log.Forkable) (init : P log.context)
    (keeps : ∀ {c c' : Context} {r : Recorded Transcript}, P c → r ∈ records →
      Context.Change c r c' → P c')
    (own : ∀ {c : Context} {r : Recorded Transcript}, P c → r ∈ records → ∀ text voice,
      r.value = .steering text voice → c.OwnNewest)
    (held : Turn.Held log.id records) (range : ∀ r ∈ records, r.value.InRange)
    (replay : log.context.replay records = .ok c) :
    c.table.source = log.id ∧ c.table.ledger.Sound ∧ c.Kept := by
  have hkept := Context.replay_invariant
    (P := fun c => c.Blank ∧ P c ∧ c.table.source = log.id ∧ c.table.ledger.Sound ∧ c.Kept)
    (Q := fun r => r ∈ records) (by
      intro c c' r hc hr hchange
      obtain ⟨hblank, hP, hsource, hsound, hkept⟩ := hc
      refine ⟨hchange.blank, keeps hP hr hchange, hchange.source.trans hsource,
        hchange.sound hsound (range r hr), ?_⟩
      exact hchange.kept hkept hblank hsound.ordered (hsource ▸ held r hr) (own hP hr))
    (fun r hr => hr) ⟨blank, init, h.source, h.sound, h.kept⟩ replay
  exact hkept.2.2

/-- A log stays forkable while it grows by no steering, or from a newest turn of its own. -/
theorem Grew.forkable {log' : AgentLog} {ps : List Transcript} (h : log.Grew ps log')
    (blank : log.context.Blank) (forkable : log.Forkable) (readable : log'.Readable)
    (range : log'.InRange)
    (own : (∀ p ∈ ps, ∀ text voice, p ≠ .steering text voice) ∨
      log.context.OwnNewest ∧ ∀ p ∈ ps, ∀ turns evictions, p ≠ .inherited turns evictions) :
    log'.Forkable := by
  obtain ⟨hid, records, hps, hwritten, hreplay⟩ := h
  have hmem : ∀ r ∈ records, r.value ∈ ps :=
    fun r hr => hps.subset (List.mem_map_of_mem hr)
  have hwrote : ∀ r ∈ records, r ∈ log'.written := by
    intro r hr
    rw [hwritten]
    exact List.mem_append_right _ hr
  have hheld : Turn.Held log.id records := fun r hr => hid ▸ readable r (hwrote r hr)
  have hrange : ∀ r ∈ records, r.value.InRange := fun r hr => range r (hwrote r hr)
  rcases own with hplain | ⟨hown, hnotLink⟩
  · obtain ⟨hsource, hsound, hkept⟩ := replay_forkable (P := fun _ => True) blank forkable trivial
      (fun _ _ _ => trivial) (fun _ hr text voice heq => absurd heq (hplain _ (hmem _ hr) text voice))
      hheld hrange hreplay
    exact ⟨hsource.trans hid.symm, hsound, hkept⟩
  · obtain ⟨hsource, hsound, hkept⟩ := replay_forkable (P := Context.OwnNewest) blank forkable hown
      (fun hc hr hchange => hchange.ownNewest hc (hnotLink _ (hmem _ hr)))
      (fun hc _ _ _ _ => hc) hheld hrange hreplay
    exact ⟨hsource.trans hid.symm, hsound, hkept⟩

theorem Grew.readable {log' : AgentLog} {ps : List Transcript} (h : log.Grew ps log')
    (readable : log'.Readable) : log.Readable := by
  obtain ⟨hid, records, -, hwritten, -⟩ := h
  intro r hr
  rw [← hid]
  exact readable r (by rw [hwritten]; exact List.mem_append_left _ hr)

theorem Grew.inRange {log' : AgentLog} {ps : List Transcript} (h : log.Grew ps log')
    (range : log'.InRange) : log.InRange := by
  obtain ⟨-, records, -, hwritten, -⟩ := h
  intro r hr
  exact range r (by rw [hwritten]; exact List.mem_append_left _ hr)

theorem new_forkable (id : AgentId) (failure : Option String) :
    (AgentLog.mk id (.new id) [] failure).Forkable := by
  refine ⟨rfl, Context.new_sound id, ?_, ?_⟩
  · intro t ht
    cases ht
  · intro t ht
    cases ht

/-- What an operation writes either has no steering or finds the newest turn its own. -/
theorem writes_spares {op : Operation} {ps : List Transcript} (h : op.Writes log.context ps)
    (kept : log.context.Kept) (may : op.Spares log) :
    (∀ p ∈ ps, ∀ text voice, p ≠ .steering text voice) ∨ log.context.OwnNewest := by
  cases h with
  | continued ready live => exact Or.inr (may live)
  | steering awaits =>
    right
    intro t ht
    by_contra hinherited
    have hrest := kept.settled t ht hinherited
    rw [hrest] at awaits
    cases awaits
  | quiesce =>
    left
    intro p hp text voice heq
    subst heq
    rcases Operation.mem_quiesceRecords hp with ⟨ids, h⟩ | h <;> cases h
  | _ =>
    left
    intro p hp text voice heq
    rw [List.mem_singleton.mp hp] at heq
    cases heq

theorem Reached.forkable (h : Reached writer Operation.Spares log) (readable : log.Readable)
    (range : log.InRange) : log.Forkable := by
  induction h with
  | @created id inherited system log opened =>
    apply (create_grew opened).forkable (Context.new_blank id) (new_forkable id none) readable range
    left
    intro p hp text voice heq
    subst heq
    cases inherited <;> simp at hp
  | @ran log log' op out before may run alive ih =>
    obtain ⟨ps, hgrew, hwrites⟩ := run_grew run alive
    have hforkable := ih (hgrew.readable readable) (hgrew.inRange range)
    apply hgrew.forkable before.folded.blank hforkable readable range
    rcases hwrites with rfl | hwrites
    · left
      intro p hp
      cases hp
    · rcases writes_spares hwrites hforkable.kept may with h | h
      · exact Or.inl h
      · exact Or.inr ⟨h, hwrites.notLink⟩
  | @reopened log log' system out before run alive ih =>
    obtain ⟨mid, hquiesced, hprompted⟩ := reopen_grew before.folded run alive
    have hreadable := hprompted.readable readable
    have hrange := hprompted.inRange range
    have hforkable := ih (hquiesced.readable hreadable) (hquiesced.inRange hrange)
    have hmid : mid.Forkable := by
      apply hquiesced.forkable before.folded.blank hforkable hreadable hrange
      have hwrites : (Operation.quiesce .aborted).Writes log.context _ := .quiesce
      rcases writes_spares hwrites hforkable.kept trivial with h | h
      · exact Or.inl h
      · exact Or.inr ⟨h, hwrites.notLink⟩
    apply hprompted.forkable (hquiesced.folded before.folded).blank hmid readable range
    left
    intro p hp text voice heq
    rw [List.mem_singleton.mp hp] at heq
    cases heq

/-! ## What an agent asks of its log -/

theorem Grew.ownNewest {log' : AgentLog} {ps : List Transcript} (h : log.Grew ps log')
    (own : log.context.OwnNewest) (notLink : ∀ p ∈ ps, ∀ turns evictions, p ≠ .inherited turns evictions) :
    log'.context.OwnNewest := by
  obtain ⟨-, records, hps, -, hreplay⟩ := h
  exact Context.replay_invariant (Q := fun r => r ∈ records)
    (fun hc hr hchange => hchange.ownNewest hc (notLink _ (hps.subset (List.mem_map_of_mem hr))))
    (fun r hr => hr) own hreplay

theorem ownNewest_of_run {log' : AgentLog} {op : Operation} {out : Outcome} (own : log.context.OwnNewest)
    (run : op.run writer log = (out, log')) (alive : ∀ message, out ≠ .panicked message) :
    log'.context.OwnNewest := by
  obtain ⟨ps, hgrew, rfl | hwrites⟩ := run_grew run alive
  · exact hgrew.ownNewest own (by simp)
  · exact hgrew.ownNewest own hwrites.notLink

/-- A prompt that continues none, once committed, is the newest turn. -/
theorem ownNewest_of_prompt {log' : AgentLog} {text : String} {voice : Voice}
    (run : (Operation.appendUser text none voice).run writer log = (.committed, log')) :
    log'.context.OwnNewest := by
  obtain ⟨why, h⟩ | ⟨why, h⟩ | ⟨ps, hwrites, h⟩ := (Operation.appendUser text none voice).run_cases writer log
  · rw [h] at run
    cases run
  · rw [h] at run
    cases run
  · rw [h] at run
    obtain ⟨-, records, hps, -, hreplay⟩ := recordAll_committed run
    cases hwrites with
    | user ready =>
      obtain ⟨r, rest, rfl, hvalue, hrest⟩ := List.map_eq_cons_iff.mp hps
      obtain rfl := List.map_eq_nil_iff.mp hrest
      obtain ⟨c, hstep, hnil⟩ := Context.replay_cons.mp hreplay
      cases hnil
      have hopens : Context.Opens r.value log.context.nextId .user .own (openingLine text) := by
        rw [hvalue]
        exact .prompt _ _ _
      exact (Context.change_of_step hstep).ownNewest_opened hopens

theorem Attends.owned {phase phase' : Phase} {log' : AgentLog} (h : Attends writer phase log phase' log')
    (owned : phase.Owned → log.context.OwnNewest) : phase'.Owned → log'.context.OwnNewest := by
  cases h with
  | takes text voice => exact fun hnone => (hnone rfl).elim
  | nudges text current => exact fun _ => owned trivial
  | ends => exact False.elim
  | reopens run alive => exact False.elim
  | @runs _ _ _ op out may run alive =>
    intro hafter
    cases phase with
    | resting => exact hafter.elim
    | deliberating => exact ownNewest_of_run (owned trivial) run alive
    | attempting prompt =>
      obtain rfl := may
      cases hcontinues : prompt.continues with
      | some id =>
        have hown : log.context.OwnNewest := owned (by simp [Phase.Owned, hcontinues])
        exact ownNewest_of_run hown run alive
      | none =>
        rw [hcontinues] at run
        cases out with
        | committed => exact ownNewest_of_prompt run
        | refused why => exact hafter.elim
        | unavailable why => exact hafter.elim
        | panicked message => exact hafter.elim

theorem Attended.owned {phase : Phase} (h : Attended writer phase log) :
    phase.Owned → log.context.OwnNewest := by
  induction h with
  | created opened => exact False.elim
  | step before next ih => exact next.owned ih

omit [Host] in
/-- What an agent runs spares inherited turns: a prompt is continued in the exchange that
committed it. -/
theorem spares_of_runs {phase : Phase} {op : Operation} (may : phase.Runs op)
    (owned : phase.Owned → log.context.OwnNewest) : op.Spares log := by
  cases op with
  | appendUser text continues voice =>
    cases phase with
    | resting => exact may.elim
    | deliberating => exact may.elim
    | attempting prompt =>
      cases may
      cases hcontinues : prompt.continues with
      | none => trivial
      | some id => exact fun _ => owned (by simp [Phase.Owned, hcontinues])
  | _ => trivial

theorem Attended.reached {phase : Phase} (h : Attended writer phase log) : Reached writer Operation.Spares log := by
  induction h with
  | created opened => exact .created opened
  | step before next ih =>
    cases next with
    | takes text voice => exact ih
    | nudges text current => exact ih
    | ends => exact ih
    | runs may run alive => exact ih.ran (spares_of_runs may before.owned) run alive
    | reopens run alive => exact ih.reopened run alive

end AgentLog

/-! ## The child -/

/-- An item of a context and what a fork of it has in its place. -/
inductive Item.Inherits : Item → Item → Prop
  | turn {t t' : Turn} (id : t'.id = t.id) (role : t'.role = t.role) (label : t'.label = t.label)
      (location : t'.location = t.location) (records : t'.records = cut t.records) :
    Inherits (.turn t) (.turn t')
  | eviction (e : Eviction × Location) : Inherits (.eviction e) (.eviction e)

def Item.cutMessages [Host] : Item → List ChatMessage
  | .turn t => residentMessages (cut t.records)
  | i => i.messages

/-- A child has its parent's turns and evictions where they were, the same frontier, and sends
the same messages, less a batch cut short. -/
structure Context.Inherits [Host] (parent child : Context) : Prop where
  turns : (child.table.turns.map fun t => (t.id, t.location)) =
    parent.table.turns.map fun t => (t.id, t.location)
  evictions : child.table.evictions = parent.table.evictions
  frontier : List.Forall₂ Item.Inherits parent.table.frontier child.table.frontier
  rendered : child.rendered = parent.table.frontier.flatMap Item.cutMessages

namespace Item.Inherits

variable {i i' j j' : Item}

theorem span_eq (h : i.Inherits i') : i'.span = i.span := by
  cases h with
  | turn id => simp [span, id]
  | eviction e => rfl

theorem location_eq (h : i.Inherits i') : i'.location = i.location := by
  cases h with
  | turn _ _ _ location => exact location
  | eviction e => rfl

theorem key_eq (h : i.Inherits i') : i'.key = i.key := by
  have hkind : i'.isTurn = i.isTurn := by cases h <;> rfl
  unfold key
  rw [h.span_eq, hkind]

theorem messages_eq [Host] (h : i.Inherits i') : i.cutMessages = i'.messages := by
  cases h with
  | turn _ _ _ _ records => simp [cutMessages, messages, records]
  | eviction e => rfl

end Item.Inherits

namespace Table

theorem frontier_inherits {parent child : Table}
    (turns : List.Forall₂ (fun t t' => Item.Inherits (.turn t) (.turn t')) parent.turns child.turns)
    (evictions : child.evictions = parent.evictions) :
    List.Forall₂ Item.Inherits parent.frontier child.frontier := by
  have hevictions : List.Forall₂ Item.Inherits (parent.evictions.reverse.map Item.eviction)
      (child.evictions.reverse.map Item.eviction) := by
    rw [evictions, List.forall₂_map_left_iff, List.forall₂_map_right_iff, List.forall₂_same]
    exact fun e _ => .eviction e
  have hturns : List.Forall₂ Item.Inherits (parent.turns.map Item.turn)
      (child.turns.map Item.turn) := by
    rw [List.forall₂_map_left_iff, List.forall₂_map_right_iff]
    exact turns
  have hitems : List.Forall₂ Item.Inherits parent.items child.items := by
    apply Related.insertionSort
    · intro a a' b b' hab hab'
      rw [hab.key_eq, hab'.key_eq]
    · exact List.rel_append hevictions hturns
  apply List.rel_filter _ hitems
  intro a b hab
  simp [Item.isResident, hab.location_eq]

end Table

namespace Context

theorem installEvictions_fst (turn : ℕ → Option Turn) (evictions : List Eviction) :
    (Table.installEvictions turn evictions).map Prod.fst = evictions := by
  induction evictions with
  | nil => rfl
  | cons e later ih => rw [Table.installEvictions, List.map_cons, ih]

/-- A parent's link carries what the judge asks of one. -/
theorem linked_sound {c : Context} (sound : c.table.ledger.Sound) :
    SoundLink c.linked c.evictions := by
  have hids : (c.linked.map fun l => l.row.id) = c.table.ledger.ids := by
    rw [Table.ledger_ids, linked, List.map_map]
    rfl
  have hspans : c.evictions.map Eviction.span = c.table.ledger.spans := by
    rw [Table.ledger_spans, evictions, List.map_map]
    rfl
  have hcarries : ∀ id ∈ c.table.ledger.ids, ∃ l ∈ c.linked, l.row.id = id := by
    intro id hid
    rw [← hids] at hid
    exact List.mem_map.mp hid
  constructor
  · rw [hids]
    exact sound.ordered
  · intro e he
    have hcarried := sound.carried e.span (hspans ▸ List.mem_map_of_mem he)
    exact ⟨hcarries _ hcarried.1, hcarries _ hcarried.2⟩
  · rw [hspans]
    exact sound.laminar
  · rw [hspans]
    intro l hl hw
    obtain ⟨t, ht, rfl⟩ := List.mem_map.mp hl
    exact sound.placed (t.id, t.location) (Table.mem_ledger.mpr ⟨t, ht, rfl, rfl⟩) hw

variable [Host]

/-- What a row of a link is installed as, of the turn it was made from. -/
theorem inherits_of_installed {source : AgentId} {t t' : Turn} (traced : t.Traced source)
    (h : (t.linked source).Installed t') : Item.Inherits (.turn t) (.turn t') := by
  have hlocation : t'.location = t.location := h.location
  refine .turn h.id h.role h.label hlocation ?_
  by_cases hresident : t.location = .resident
  · obtain ⟨full, hread, hcut⟩ := traced.reads hresident
    have hbody := h.holds
    unfold Linked.Holds at hbody
    simp only [Turn.linked, hresident] at hbody
    obtain ⟨records, hrecords, hb⟩ := hbody
    have hsame : full = records := Except.ok.inj (hread.symm.trans hrecords)
    rw [← hcut, hsame]
    simp [Turn.records, hb]
  · have hempty : ∀ u : Turn, u.location ≠ .resident → u.records = [] := by
      intro u hu
      unfold Turn.records
      cases hb : u.body with
      | here records origin => exact absurd (by simp [Turn.location, hb]) hu
      | evicted pointer under => rfl
      | withdrawn pointer => rfl
    rw [hempty t hresident, hempty t' (hlocation ▸ hresident)]
    rfl

omit [Host] in
theorem linked_admitted {c : Context} (sound : c.table.ledger.Sound) (child : AgentId) :
    (Context.new child).judge 1 (.inherited c.linked c.evictions) = none := by
  rw [judge_eq_none]
  refine ⟨rfl, by simp [opens], ?_, by simp [extended]⟩
  exact linkRefusal_eq_none.mpr ⟨rfl, linked_sound sound⟩

theorem linked_reads {c : Context} (traced : ∀ t ∈ c.table.turns, t.Traced c.table.source) :
    ∃ seeds, readSeeds c.linked = .ok seeds := by
  apply readSeeds_of_pointers
  intro l hl hresident
  obtain ⟨t, ht, rfl⟩ := List.mem_map.mp hl
  obtain ⟨full, hread, -⟩ := (traced t ht).reads hresident
  exact ⟨full, hread⟩

theorem installed_turns {c : Context} (sound : c.table.ledger.Sound) {table child : Table}
    {seeds : List (List (Recorded Transcript))}
    (installed : table.install c.linked c.evictions seeds = some child) :
    child.ledger.turns = c.table.ledger.turns := by
  rw [(Table.install_ledger (linked_sound sound).ordered installed).1, linked, List.map_map]
  rfl

theorem installed_evictions {c : Context} (sound : c.table.ledger.Sound) {table child : Table}
    {seeds : List (List (Recorded Transcript))}
    (installed : table.install c.linked c.evictions seeds = some child) :
    child.evictions = c.table.evictions := by
  have hevictions := (Table.install_ledger (linked_sound sound).ordered installed).2
  have hgone : child.ledger.gone = c.table.ledger.gone := by
    funext id
    unfold Ledger.gone
    rw [installed_turns sound installed]
  have hspans : c.evictions.map Eviction.span = c.table.ledger.spans := by
    rw [Table.ledger_spans, evictions, List.map_map]
    rfl
  have hmarks : child.ledger.evictions = c.table.ledger.evictions := by
    rw [hevictions, hgone, hspans, ← sound.stamped]
  have hnames : child.evictions.map Prod.fst = c.table.evictions.map Prod.fst := by
    unfold Table.install at installed
    rw [Option.map_eq_some_iff] at installed
    obtain ⟨turns, -, rfl⟩ := installed
    exact installEvictions_fst _ _
  apply Related.eq_of_columns hnames
  have hstamps := congrArg (List.map Prod.snd) hmarks
  simpa [Table.ledger, List.map_map, Function.comp_def] using hstamps

/-- The child of a context that is traced inherits it. -/
theorem step_inherits {c : Context} (sound : c.table.ledger.Sound)
    (traced : ∀ t ∈ c.table.turns, t.Traced c.table.source) (child : AgentId) (locus : Locus) :
    ∃ c', (Context.new child).stepTranscript ⟨locus, .inherited c.linked c.evictions⟩ = .ok c' ∧
      c.Inherits c' := by
  obtain ⟨seeds, hseeds⟩ := linked_reads traced
  obtain ⟨turns, hturns, hinstalled⟩ := installTurns_of_read hseeds
  cases hinstall : (Table.new child).install c.linked c.evictions seeds with
  | none => simp [Table.install, hturns] at hinstall
  | some table =>
    have htable : table.turns = turns := by
      unfold Table.install at hinstall
      rw [hturns] at hinstall
      cases hinstall
      rfl
    have hjudge : (Context.new child).judge ((Context.new child).len + 1)
        (.inherited c.linked c.evictions) = none := linked_admitted sound child
    have hinstall' : (Context.new child).table.install c.linked c.evictions seeds = some table :=
      hinstall
    refine ⟨{ Context.new child with table := table, len := 1 }, ?_, ?_⟩
    · unfold stepTranscript
      dsimp only
      rw [hjudge]
      simp only [apply, hseeds, hinstall', place]
      rfl
    · have hinherits : List.Forall₂ (fun t t' => Item.Inherits (.turn t) (.turn t'))
          c.table.turns table.turns := by
        rw [htable]
        unfold linked at hinstalled
        rw [List.forall₂_map_left_iff] at hinstalled
        have hboth := (List.forall₂_and_left _ _).mpr ⟨traced, hinstalled⟩
        exact hboth.imp fun t t' h => inherits_of_installed h.1 h.2
      have hevictions := installed_evictions sound hinstall
      have hfrontier := Table.frontier_inherits hinherits hevictions
      exact ⟨installed_turns sound hinstall, hevictions, hfrontier,
        (Related.flatMap_eq (fun h => h.messages_eq) hfrontier).symm⟩

end Context

namespace AgentLog

theorem Folded.sound [Host] {log : AgentLog} (folded : log.Folded) (range : log.InRange) :
    log.context.table.ledger.Sound :=
  Context.replay_invariant (P := fun c => c.table.ledger.Sound)
    (fun hc hr hchange => hchange.sound hc hr) range (Context.new_sound log.id) folded

/-- A log's link is one its fork's judge admits; once the log reads back, what the fork installs
is the log's own context. -/
theorem fork_inherits [Host] {writer : Writer} {phase : Phase} {parent : AgentLog}
    (h : Attended writer phase parent) (range : parent.InRange) (child : AgentId) :
    (Context.new child).judge 1
        (.inherited parent.context.linked parent.context.evictions) = none ∧
      (parent.Readable → ∀ locus, ∃ c, (Context.new child).stepTranscript
          ⟨locus, .inherited parent.context.linked parent.context.evictions⟩ = .ok c ∧
        parent.context.Inherits c) := by
  constructor
  · exact Context.linked_admitted (h.reached.folded.sound range) child
  · intro readable locus
    have hforkable := h.reached.forkable readable range
    exact Context.step_inherits hforkable.sound hforkable.kept.traced child locus

/-! ## A prompt and a nudge -/

def numbered (n : ℕ) : Locus := ⟨⟨n, 0⟩, ⟨0, 1⟩, ⟨0, Record.Sum.zero_lt⟩⟩

def numberingWriter : Writer := fun written _ => .ok (numbered written.length)

def nudgedRecords : List Transcript := [.system "", .userPrompt 1 "go" .human, .steering "more" .harness]

/-- A run whose one log is that. -/
@[reducible] def nudgedHost : Host :=
  ⟨fun _ locus => match nudgedRecords[locus.seq.commit]? with
    | some p => .ok (.transcript p)
    | none => .error "no such record", fun _ => "record.jsonl", fun _ => 0, fun text => text⟩

def prompted [Host] : AgentLog :=
  ((create numberingWriter 1 none "").2.appendUser numberingWriter "go" none .human).2

def nudged [Host] : AgentLog := (prompted.appendUser numberingWriter "more" (some 1) .harness).2

theorem nudged_attended [Host] : Attended numberingWriter .deliberating nudged := by
  have hopened : Attended numberingWriter .resting (create numberingWriter 1 none "").2 :=
    .created (show create numberingWriter 1 none "" = (.committed, _) from rfl)
  have htaken := hopened.step (.takes "go" .human)
  have hprompted := htaken.step (.commits rfl rfl)
  have hcurrent : (prompted : AgentLog).context.currentPrompt = some 1 := rfl
  have hnudged := (hprompted.step (.nudges "more" hcurrent)).step (.commits rfl rfl)
  exact hnudged

theorem nudged_written [Host] : (nudged : AgentLog).written =
    [⟨numbered 0, .system ""⟩, ⟨numbered 1, .userPrompt 1 "go" .human⟩, ⟨numbered 2, .steering "more" .harness⟩] := rfl

theorem nudged_in_range [Host] : (nudged : AgentLog).InRange := by
  unfold InRange
  rw [nudged_written]
  simp [Transcript.InRange, Context.opens, u64Max]

theorem nudged_readable : @Readable nudgedHost (@nudged nudgedHost) := by
  unfold Readable Turn.Held
  rw [@nudged_written nudgedHost]
  intro r hr
  simp only [List.mem_cons, List.not_mem_nil, or_false] at hr
  rcases hr with rfl | rfl | rfl <;> rfl

theorem fork_inherits_nudged : ∃ (_ : Host) (parent : AgentLog),
    parent.context.rendered = [.user "go", .user "more"] ∧ (Context.new 2).judge 1
        (.inherited parent.context.linked parent.context.evictions) = none ∧
      ∃ c, (Context.new 2).stepTranscript
          ⟨numbered 0, .inherited parent.context.linked parent.context.evictions⟩ = .ok c ∧
        parent.context.Inherits c := by
  have hfork := @fork_inherits nudgedHost _ _ _ (@nudged_attended nudgedHost) (@nudged_in_range nudgedHost) 2
  exact ⟨nudgedHost, @nudged nudgedHost, by decide, hfork.1, hfork.2 nudged_readable _⟩

end AgentLog

end Ral.Session
