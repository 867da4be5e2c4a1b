import Ral.Core.Fallible
import Ral.Session.Fold

/-! # What one step can do

The judge's rules as facts, and the changes a judged record makes, one case a kind. Every
invariant of a context is derived from these.
-/

namespace Ral.Session
open Ral.Record (Recorded Locus)

/-! ## The judge's rules -/

theorem Table.straddling_eq_none {table : Table} {id : ℕ} :
    table.straddling id = none ↔ ∀ s ∈ table.spans, ¬ (s.fst < id ∧ id ≤ s.snd) := by
  have hspans : table.spans = (table.evictions.map Prod.fst).map Eviction.span := by
    simp [Table.spans]
  rw [hspans, List.forall_mem_map]
  simp only [Table.straddling, List.argmax_eq_none, List.reverse_eq_nil_iff,
    List.filter_eq_nil_iff, decide_eq_true_eq]

namespace Context

theorem crossed_eq_none {spans : List Span} :
    crossed spans = none ↔ Intervals.Laminar spans := by
  induction spans with
  | nil => simp [crossed, Intervals.Laminar]
  | cons earlier rest ih =>
    unfold crossed Intervals.Laminar
    rw [List.pairwise_cons]
    cases hf : rest.find? fun later =>
      !decide (earlier ≤ later ∨ Intervals.Apart earlier later) with
    | some later =>
      have hmem := List.mem_of_find?_eq_some hf
      have hbad := List.find?_some hf
      simp only [reduceCtorEq, false_iff, not_and]
      intro hall
      have hgood := hall later hmem
      simp [hgood] at hbad
    | none =>
      rw [List.find?_eq_none] at hf
      simp only [ih]
      constructor
      · intro h
        exact ⟨fun later hl => by simpa [or_iff_not_imp_left] using hf later hl, h⟩
      · intro h
        exact h.2

theorem disorder_eq_none {turns : List Linked} :
    disorder turns = none ↔ (turns.map fun linked => linked.row.id).Pairwise (· < ·) := by
  induction turns with
  | nil => simp [disorder]
  | cons a rest ih =>
    rw [List.map_cons, List.pairwise_cons, ← ih]
    cases rest with
    | nil => simp [disorder]
    | cons b rest =>
      have hstep : disorder (a :: b :: rest) = none ↔
          a.row.id < b.row.id ∧ disorder (b :: rest) = none := by
        simp [disorder, List.find?_cons]
        by_cases hab : b.row.id ≤ a.row.id
        · simp [hab]
        · simp [hab]
          omega
      rw [hstep]
      constructor
      · intro h
        have hsorted := List.pairwise_cons.mp (ih.mp h.2)
        refine ⟨?_, h.2⟩
        intro id hid
        rcases List.mem_cons.mp hid with rfl | hid
        · exact h.1
        · exact h.1.trans (hsorted.1 id hid)
      · intro h
        exact ⟨h.1 _ (by simp), h.2⟩

theorem loose_eq_none {turns : List Linked} {spans : List Span} :
    loose turns spans = none ↔ ∀ s ∈ spans, (∃ l ∈ turns, l.row.id = s.fst) ∧
      ∃ l ∈ turns, l.row.id = s.snd := by
  simp [loose, List.find?_eq_none]

theorem contradicted_eq_none {turns : List Linked} {spans : List Span} :
    contradicted turns spans = none ↔ ∀ l ∈ turns, l.row.location ≠ .withdrawn →
      l.row.location = heldBy (.single l.row.id) spans := by
  simp [contradicted, List.find?_eq_none]

/-- What the judge lets a link carry. -/
structure SoundLink (turns : List Linked) (evictions : List Eviction) : Prop where
  ordered : (turns.map fun linked => linked.row.id).Pairwise (· < ·)
  carried : ∀ e ∈ evictions, (∃ l ∈ turns, l.row.id = e.span.fst) ∧
    ∃ l ∈ turns, l.row.id = e.span.snd
  laminar : Intervals.Laminar (evictions.map Eviction.span)
  placed : ∀ l ∈ turns, l.row.location ≠ .withdrawn →
    l.row.location = heldBy (.single l.row.id) (evictions.map Eviction.span)

theorem linkRefusal_eq_none {n : ℕ} {turns : List Linked} {evictions : List Eviction} :
    linkRefusal n turns evictions = none ↔ n = 1 ∧ SoundLink turns evictions := by
  simp only [linkRefusal, Option.or_eq_none_iff, Option.map_eq_none_iff, disorder_eq_none,
    loose_eq_none, crossed_eq_none, contradicted_eq_none, List.forall_mem_map]
  constructor
  · intro h
    refine ⟨?_, h.2.1, h.2.2.1, h.2.2.2.1, h.2.2.2.2⟩
    by_contra hn
    simp [hn] at h
  · intro h
    exact ⟨by simp [h.1], h.2.ordered, h.2.carried, h.2.laminar, h.2.placed⟩

theorem isWithdrawn_false {t : Turn} (h : t.isWithdrawn = false) : t.location ≠ .withdrawn := by
  intro hl
  rw [t.isWithdrawn_eq.mpr hl] at h
  cases h

theorem endRefusal_eq_none {c : Context} {id : ℕ} :
    c.endRefusal id = none ↔ ∃ t, c.turn id = some t ∧ t.location ≠ .withdrawn := by
  unfold endRefusal
  cases c.turn id with
  | none => simp
  | some t =>
    cases hw : t.isWithdrawn with
    | true => simp [hw, t.isWithdrawn_eq.mp hw]
    | false => simp [hw, isWithdrawn_false hw]

theorem gone_eq_none {c : Context} {anchor : ℕ} :
    c.gone anchor = none ↔ ∃ t, c.turn anchor = some t ∧ t.location ≠ .withdrawn := by
  unfold gone
  cases c.turn anchor with
  | none => simp
  | some t =>
    cases hw : t.isWithdrawn with
    | true => simp [hw, t.isWithdrawn_eq.mp hw]
    | false => simp [hw, isWithdrawn_false hw]

structure Evictable (c : Context) (span : Span) : Prop where
  opens : ∃ t, c.turn span.fst = some t ∧ t.location ≠ .withdrawn
  closes : ∃ t, c.turn span.snd = some t ∧ t.location ≠ .withdrawn
  spared : ∀ id, c.unclosedTurn = some id → ¬ (span.fst ≤ id ∧ id ≤ span.snd)
  startsItem : ∀ s ∈ c.table.spans, ¬ (s.fst < span.fst ∧ span.fst ≤ s.snd)
  endsItem : ∀ s ∈ c.table.spans,
    ¬ (s.fst < saturatingAdd span.snd 1 ∧ saturatingAdd span.snd 1 ≤ s.snd)

theorem cutRefusal_eq_none {c : Context} {span : Span} :
    c.cutRefusal span = none ↔ Evictable c span := by
  unfold cutRefusal
  simp only [Option.or_eq_none_iff, Option.map_eq_none_iff, endRefusal_eq_none,
    Table.straddling_eq_none, Option.filter_eq_none_iff]
  constructor
  · intro h
    exact ⟨h.1, h.2.1, fun id hid => by simpa using h.2.2.1 id hid, h.2.2.2.1, h.2.2.2.2⟩
  · intro h
    exact ⟨h.opens, h.closes, fun id hid => by simpa using h.spared id hid, h.startsItem,
      h.endsItem⟩

/-- What a rewind to `anchor` rests on, the protocol's state apart. -/
structure Rewindable (c : Context) (anchor : ℕ) : Prop where
  recorded : ∃ t, c.turn anchor = some t ∧ t.location ≠ .withdrawn
  uncut : ∀ s ∈ c.table.spans, ¬ (s.fst < anchor ∧ anchor ≤ s.snd)

theorem anchorRefusal_eq_none {c : Context} {n anchor : ℕ} :
    c.anchorRefusal n anchor = none ↔ Rewindable c anchor := by
  simp only [anchorRefusal, Option.or_eq_none_iff, Option.map_eq_none_iff, gone_eq_none,
    Table.straddling_eq_none]
  exact ⟨fun h => ⟨h.1, h.2⟩, fun h => ⟨h.recorded, h.uncut⟩⟩

theorem rewindRefusal_eq_none {c : Context} {anchor : ℕ} :
    c.rewindRefusal anchor = none ↔ Rewindable c anchor ∧ c.isReady := by
  have hgone := @gone_eq_none c anchor
  have hcut := @Table.straddling_eq_none c.table anchor
  have hrewindable : Rewindable c anchor ↔
      c.gone anchor = none ∧ c.table.straddling anchor = none := by
    rw [hgone, hcut]
    exact ⟨fun h => ⟨h.recorded, h.uncut⟩, fun h => ⟨h.1, h.2⟩⟩
  rw [hrewindable]
  unfold rewindRefusal gone
  cases c.turn anchor with
  | none => simp
  | some t =>
    dsimp only
    cases t.isWithdrawn <;> cases c.table.straddling anchor <;> cases c.isReady <;> simp

/-! ## Changes -/

/-- The turn a record opens, its role, provenance and label. -/
inductive Opens : Transcript → ℕ → Role → TurnKind → String → Prop
  | prompt (id : ℕ) (text : String) (voice : Voice) :
    Opens (.userPrompt id text voice) id .user .own (openingLine text)
  | reply (id : ℕ) (message : ChatMessage) (ids : List String) (stopReason : Option String) :
    Opens (.assistantMessage id message ids stopReason) id .assistant .own (messageLabel message)
  | note (id : ℕ) (message : ChatMessage) :
    Opens (.import id message) id (messageRole message) .import (messageLabel message)

/-- A record whose material lands on the newest turn. -/
inductive Extends : Transcript → Prop
  | steering (text : String) (voice : Voice) : Extends (.steering text voice)
  | results (results : List ToolResult) : Extends (.toolResults results)

/-- What the fold makes of a context at a record it admits. -/
inductive Change [Host] (c : Context) : Recorded Transcript → Context → Prop
  | system (locus : Locus) (text : String) :
    Change c ⟨locus, .system text⟩ { c with system := text, len := c.len + 1 }
  | link {locus : Locus} {turns : List Linked} {evictions : List Eviction}
      {seeds : List (List (Recorded Transcript))} {table : Table}
      (first : c.len = 0) (sound : SoundLink turns evictions) (read : readSeeds turns = .ok seeds)
      (installed : c.table.install turns evictions seeds = some table) :
    Change c ⟨locus, .inherited turns evictions⟩ { c with table := table, len := c.len + 1 }
  | evict {locus : Locus} {e : Eviction} (evictable : Evictable c e.span) :
    Change c ⟨locus, .evicted e⟩
      { c with table := c.table.evict e, newestEdit := some c.len, len := c.len + 1 }
  | withdraw {locus : Locus} {p : Transcript} {lo : ℕ}
      (edit : p = .rewound lo ∨ p = .cleared ∧ lo = 0) (ready : c.state.admitsNewTurn)
      (uncut : ∀ s ∈ c.table.spans, ¬ (s.fst < lo ∧ lo ≤ s.snd))
      (recorded : lo = 0 ∨ ∃ t ∈ c.table.turns, t.id = lo) :
    Change c ⟨locus, p⟩ { c.withdraw lo with len := c.len + 1 }
  | opened {r : Recorded Transcript} {id bytes : ℕ} {role : Role} {kind : TurnKind}
      {label : String} (opens : Opens r.value id role kind label)
      (legal : admissible c.state r.value) (fresh : ∀ reach, c.reach = some reach → reach < id) :
    Change c r { c with
      table := { c.table with
        turns := c.table.turns ++ [⟨id, role, kind, label, bytes, .here [r] none⟩] }
      state := c.state.advance r.value
      len := c.len + 1 }
  | extended {r : Recorded Transcript} {init : List Turn} {last : Turn}
      {records : List (Recorded Transcript)} {origin : Option Pointer} {bytes : ℕ}
      (adds : Extends r.value) (legal : admissible c.state r.value)
      (newest : c.table.turns = init ++ [last]) (here : last.body = .here records origin) :
    Change c r { c with
      table := { c.table with
        turns := init ++ [{ last with bytes := bytes, body := .here (records ++ [r]) origin }] }
      state := c.state.advance r.value
      len := c.len + 1 }
  /-- No reachable context takes this one: results are awaited only once a turn is recorded. -/
  | adrift {r : Recorded Transcript} (legal : admissible c.state r.value)
      (adds : Extends r.value) (empty : c.table.turns = [])
      (waiting : c.state.admitsNewTurn = false) :
    Change c r { c with state := c.state.advance r.value, len := c.len + 1 }

theorem judge_eq_none {c : Context} {n : ℕ} {p : Transcript} :
    c.judge n p = none ↔ admissible c.state p ∧
      (∀ id, opens p = some id → ∀ reach, c.reach = some reach → reach < id) ∧
      c.kindRefusal n p = none ∧ ∀ t, c.extended p = some t → t.location = .resident := by
  unfold judge stale
  cases hadm : admissible c.state p with
  | false => simp
  | true =>
    cases hs : (opens p).filter fun id => c.reach.any fun reach => id ≤ reach with
    | some id =>
      rw [Option.filter_eq_some_iff] at hs
      simp only [Bool.not_true, Bool.false_eq_true, if_false, reduceCtorEq, true_and, false_iff,
        not_and]
      intro hfresh
      obtain ⟨hopen, hany⟩ := hs
      cases hr : c.reach with
      | none => simp [hr] at hany
      | some reach =>
        have hle : id ≤ reach := by simpa [hr] using hany
        have := hfresh id hopen reach hr
        omega
    | none =>
      rw [Option.filter_eq_none_iff] at hs
      simp only [Bool.not_true, Bool.false_eq_true, if_false, true_and, Option.or_eq_none_iff,
        Option.map_eq_none_iff, Option.filter_eq_none_iff]
      constructor
      · intro h
        refine ⟨?_, h.1, ?_⟩
        · intro id hid reach hr
          have := hs id hid
          simpa [hr] using this
        · intro t ht
          have := h.2 t ht
          exact Turn.isResident_eq.mp (by simpa using this)
      · intro h
        refine ⟨h.2.1, ?_⟩
        intro t ht
        simp [Turn.isResident_eq.mpr (h.2.2 t ht)]

theorem absorb_newest (table : Table) {init : List Turn} {last : Turn}
    {records : List (Recorded Transcript)} {origin : Option Pointer} (r : Recorded Transcript)
    (bytes : ℕ) (newest : table.turns = init ++ [last]) (here : last.body = .here records origin) :
    table.absorb init.length r bytes = some { table with
      turns := init ++ [{ last with
        bytes := saturatingAdd last.bytes bytes, body := .here (records ++ [r]) origin }] } := by
  obtain ⟨id, role, kind, label, weight, body⟩ := last
  dsimp only at here
  subst here
  simp [Table.absorb, newest]

theorem place_opened (table : Table) {p : Transcript} {id : ℕ} {role : Role} {kind : TurnKind}
    {label : String} (opens : Opens p id role kind label) :
    place table p = some (table.openTurn id role kind label, table.turns.length) := by
  cases opens <;> rfl

theorem opens_of_opened {p : Transcript} {id : ℕ} {role : Role} {kind : TurnKind}
    {label : String} (h : Opens p id role kind label) : opens p = some id := by
  cases h <;> rfl

theorem place_extended (table : Table) {p : Transcript} {init : List Turn} {last : Turn}
    (adds : Extends p) (newest : table.turns = init ++ [last]) :
    place table p = some (table, init.length) := by
  cases adds <;> simp [place, newest]

theorem place_adrift (table : Table) {p : Transcript} (adds : Extends p)
    (empty : table.turns = []) : place table p = none := by
  cases adds <;> simp [place, empty]

theorem extended_eq {c : Context} {p : Transcript} (adds : Extends p) :
    c.extended p = c.table.turns.getLast? := by
  cases adds <;> rfl

variable [Host]

theorem step_opened {c : Context} {r : Recorded Transcript} {id : ℕ} {role : Role}
    {kind : TurnKind} {label : String} (opens : Opens r.value id role kind label)
    (judged : c.judge (c.len + 1) r.value = none) :
    ∃ c', c.stepTranscript r = .ok c' ∧ Change c r c' := by
  have happly : c.apply r.value = .ok { c with state := c.state.advance r.value } := by
    cases hp : r.value with
    | userPrompt turn text voice => rfl
    | assistantMessage turn message ids stop => rfl
    | «import» turn message => rfl
    | _ => rw [hp] at opens; cases opens
  have hjudge := judge_eq_none.mp judged
  have hplace := place_opened c.table opens
  unfold stepTranscript
  rw [judged, happly]
  dsimp only
  rw [hplace]
  dsimp only
  rw [absorb_newest (c.table.openTurn id role kind label) r _ rfl rfl]
  exact ⟨_, rfl, .opened opens hjudge.1 (hjudge.2.1 id (opens_of_opened opens))⟩

theorem step_extended {c : Context} {r : Recorded Transcript} (adds : Extends r.value)
    (judged : c.judge (c.len + 1) r.value = none) :
    ∃ c', c.stepTranscript r = .ok c' ∧ Change c r c' := by
  have happly : c.apply r.value = .ok { c with state := c.state.advance r.value } := by
    cases hp : r.value with
    | steering text voice => rfl
    | toolResults results => rfl
    | _ => rw [hp] at adds; cases adds
  have hjudge := judge_eq_none.mp judged
  unfold stepTranscript
  rw [judged, happly]
  dsimp only
  rcases List.eq_nil_or_concat' c.table.turns with hempty | ⟨init, last, hturns⟩
  · rw [place_adrift c.table adds hempty]
    have hwaiting : c.state.admitsNewTurn = false := by
      obtain ⟨locus, p⟩ := r
      cases adds with
      | steering text voice =>
        have hkind := hjudge.2.2.1
        simp [kindRefusal, hempty] at hkind
      | results results =>
        have hlegal := hjudge.1
        cases hs : c.state <;> simp [admissible, hs] at hlegal
        rfl
    exact ⟨_, rfl, .adrift hjudge.1 adds hempty hwaiting⟩
  · rw [place_extended c.table adds hturns]
    dsimp only
    have hlast : last.location = .resident := by
      apply hjudge.2.2.2 last
      rw [extended_eq adds, hturns]
      simp
    obtain ⟨records, origin, hbody⟩ := Turn.here_of_resident hlast
    rw [absorb_newest c.table r _ hturns hbody]
    exact ⟨_, rfl, .extended adds hjudge.1 hturns hbody⟩

theorem step_edit {c : Context} {r : Recorded Transcript} {lo : ℕ}
    (edit : r.value = .rewound lo ∨ r.value = .cleared ∧ lo = 0)
    (judged : c.judge (c.len + 1) r.value = none) :
    ∃ c', c.stepTranscript r = .ok c' ∧ Change c r c' := by
  have hjudge := judge_eq_none.mp judged
  have happly : c.apply r.value = .ok (c.withdraw lo) := by
    rcases edit with h | ⟨h, rfl⟩ <;> rw [h] <;> rfl
  have hplace : place (c.withdraw lo).table r.value = none := by
    rcases edit with h | ⟨h, -⟩ <;> rw [h] <;> rfl
  have hready : c.state.admitsNewTurn := by
    have hlegal := hjudge.1
    rcases edit with h | ⟨h, -⟩ <;> rw [h] at hlegal <;> exact hlegal
  have hrewindable : r.value = .rewound lo → Rewindable c lo := by
    intro h
    have hkind := hjudge.2.2.1
    rw [h] at hkind
    exact anchorRefusal_eq_none.mp hkind
  have huncut : ∀ s ∈ c.table.spans, ¬ (s.fst < lo ∧ lo ≤ s.snd) := by
    rcases edit with h | ⟨-, rfl⟩
    · exact (hrewindable h).uncut
    · intro s _ h
      omega
  have hrecorded : lo = 0 ∨ ∃ t ∈ c.table.turns, t.id = lo := by
    rcases edit with h | ⟨-, rfl⟩
    · obtain ⟨t, ht, -⟩ := (hrewindable h).recorded
      exact Or.inr ⟨t, List.mem_of_find?_eq_some ht, by simpa using List.find?_some ht⟩
    · exact Or.inl rfl
  unfold stepTranscript
  rw [judged, happly]
  dsimp only
  rw [hplace]
  exact ⟨_, rfl, .withdraw edit hready huncut hrecorded⟩

/-- A record the judge admits is folded, unless a link's files will not read back. -/
theorem step_judged {c : Context} {r : Recorded Transcript}
    (judged : c.judge (c.len + 1) r.value = none)
    (notLink : ∀ turns evictions, r.value ≠ .inherited turns evictions) :
    ∃ c', c.stepTranscript r = .ok c' ∧ Change c r c' := by
  obtain ⟨locus, p⟩ := r
  cases p with
  | system text =>
    refine ⟨{ c with system := text, len := c.len + 1 }, ?_, .system locus text⟩
    unfold stepTranscript
    rw [judged]
    rfl
  | userPrompt turn text voice => exact step_opened (.prompt turn text voice) judged
  | steering text voice => exact step_extended (.steering text voice) judged
  | «import» turn message => exact step_opened (.note turn message) judged
  | inherited turns evictions => exact absurd rfl (notLink turns evictions)
  | assistantMessage turn message ids stopReason =>
    exact step_opened (.reply turn message ids stopReason) judged
  | toolResults results => exact step_extended (.results results) judged
  | evicted e =>
    have hkind := (judge_eq_none.mp judged).2.2.1
    have hcut := cutRefusal_eq_none.mp (Option.map_eq_none_iff.mp hkind)
    refine ⟨_, ?_, .evict hcut⟩
    unfold stepTranscript
    rw [judged]
    rfl
  | rewound anchor => exact step_edit (Or.inl rfl) judged
  | cleared => exact step_edit (Or.inr ⟨rfl, rfl⟩) judged

/-- Whatever is folded is one of the changes. -/
theorem change_of_step {c c' : Context} {r : Recorded Transcript}
    (h : c.stepTranscript r = .ok c') : Change c r c' := by
  cases hj : c.judge (c.len + 1) r.value with
  | some reason => simp [stepTranscript, hj] at h
  | none =>
    by_cases hlink : ∃ turns evictions, r.value = .inherited turns evictions
    · obtain ⟨locus, p⟩ := r
      obtain ⟨turns, evictions, hp⟩ := hlink
      dsimp only at hp
      subst hp
      have hkind := linkRefusal_eq_none.mp (judge_eq_none.mp hj).2.2.1
      have hfirst : c.len = 0 := by
        have := hkind.1
        omega
      unfold stepTranscript at h
      rw [hj] at h
      dsimp only [apply] at h
      cases hread : readSeeds turns with
      | error e => simp [hread] at h
      | ok seeds =>
        cases hinst : c.table.install turns evictions seeds with
        | none => simp [hread, hinst] at h
        | some table =>
          simp only [hread, hinst, place] at h
          cases h
          exact .link hfirst hkind.2 hread hinst
    · obtain ⟨next, hstep, hchange⟩ := step_judged hj (by simpa using hlink)
      rw [hstep] at h
      cases h
      exact hchange

/-! ## Runs -/

theorem replay_cons {c c' : Context} {r : Recorded Transcript}
    {records : List (Recorded Transcript)} :
    c.replay (r :: records) = .ok c' ↔
      ∃ next, c.stepTranscript r = .ok next ∧ next.replay records = .ok c' :=
  Fallible.foldlM_cons_eq_ok

theorem replay_append {c c' : Context} {xs ys : List (Recorded Transcript)} :
    c.replay (xs ++ ys) = .ok c' ↔ ∃ mid, c.replay xs = .ok mid ∧ mid.replay ys = .ok c' :=
  Fallible.foldlM_append_eq_ok

theorem replay_invariant {P : Context → Prop} {Q : Recorded Transcript → Prop}
    (step : ∀ {c c' : Context} {r : Recorded Transcript}, P c → Q r → Change c r c' → P c')
    {c c' : Context} {records : List (Recorded Transcript)} (all : ∀ r ∈ records, Q r)
    (init : P c) (h : c.replay records = .ok c') : P c' :=
  Fallible.foldlM_invariant (fun hc hr hstep => step hc hr (change_of_step hstep)) all init h

/-- Nothing is in a context before its first record. -/
def Blank (c : Context) : Prop :=
  c.len = 0 → c.table.turns = [] ∧ c.table.evictions = [] ∧ c.state = .readyForUser

omit [Host] in
theorem new_blank (id : AgentId) : Blank (.new id) := fun _ => ⟨rfl, rfl, rfl⟩

theorem Change.len {c c' : Context} {r : Recorded Transcript} (h : Change c r c') :
    c'.len = c.len + 1 := by
  cases h <;> rfl

theorem Change.blank {c c' : Context} {r : Recorded Transcript} (h : Change c r c') : Blank c' := by
  intro hlen
  rw [h.len] at hlen
  cases hlen

end Context

end Ral.Session
