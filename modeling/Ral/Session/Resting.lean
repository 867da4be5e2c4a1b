import Ral.Session.Steps

/-! # What a link leaves

A link's rows and the turns installed from them, one for one: a resident row holds the
admissible prefix its pointer reads back, and every other keeps its address.
-/

namespace Ral.Session
open Ral.Record (Recorded Locus)

section

variable [Host]

def Linked.Holds (l : Linked) (body : Body) : Prop :=
  match l.row.location with
  | .resident => ∃ records, Table.readPointer l.pointer = .ok records ∧
      body = .here (cut records) (some l.pointer)
  | .evicted under => body = .evicted l.pointer under
  | .withdrawn => body = .withdrawn l.pointer

/-- The turn a row is installed as, its weight apart. -/
structure Linked.Installed (l : Linked) (t : Turn) : Prop where
  id : t.id = l.row.id
  role : t.role = l.row.role
  label : t.label = l.row.label
  holds : l.Holds t.body

theorem Linked.Installed.location {l : Linked} {t : Turn} (h : l.Installed t) :
    t.location = l.row.location := by
  have hbody := h.holds
  unfold Linked.Holds at hbody
  cases hl : l.row.location with
  | resident =>
    simp only [hl] at hbody
    obtain ⟨records, -, hb⟩ := hbody
    simp [Turn.location, hb]
  | evicted under =>
    simp only [hl] at hbody
    simp [Turn.location, hbody]
  | withdrawn =>
    simp only [hl] at hbody
    simp [Turn.location, hbody]

namespace Context

theorem readSeed_eq_ok {l : Linked} {seed : List (Recorded Transcript)} :
    readSeed l = .ok seed ↔
      ∃ records, Table.readPointer l.pointer = .ok records ∧ seed = cut records := by
  unfold readSeed
  cases Table.readPointer l.pointer <;> simp [eq_comm]

theorem readSeeds_cons_resident {l : Linked} {rows : List Linked}
    {seeds : List (List (Recorded Transcript))} (resident : l.row.location = .resident) :
    readSeeds (l :: rows) = .ok seeds ↔ ∃ seed rest, seeds = seed :: rest ∧
      readSeed l = .ok seed ∧ readSeeds rows = .ok rest := by
  unfold readSeeds
  rw [List.filter_cons_of_pos (by simp [resident, Location.isResident])]
  simp only [Fallible.mapM_eq_ok, List.forall₂_cons_left_iff]
  constructor
  · intro h
    obtain ⟨seed, rest, hseed, hrest, rfl⟩ := h
    exact ⟨seed, rest, rfl, hseed, hrest⟩
  · intro h
    obtain ⟨seed, rest, rfl, hseed, hrest⟩ := h
    exact ⟨seed, rest, hseed, hrest, rfl⟩

theorem readSeeds_cons_departed {l : Linked} {rows : List Linked}
    (departed : l.row.location ≠ .resident) : readSeeds (l :: rows) = readSeeds rows := by
  unfold readSeeds
  rw [List.filter_cons_of_neg]
  cases hl : l.row.location <;> simp_all [Location.isResident]

theorem installTurns_of_read {rows : List Linked} {seeds : List (List (Recorded Transcript))}
    (read : readSeeds rows = .ok seeds) :
    ∃ turns, Table.installTurns rows seeds = some turns ∧
      List.Forall₂ Linked.Installed rows turns := by
  induction rows generalizing seeds with
  | nil => exact ⟨[], rfl, .nil⟩
  | cons l rows ih =>
    cases hl : l.row.location with
    | resident =>
      obtain ⟨seed, rest, rfl, hseed, hrest⟩ := (readSeeds_cons_resident hl).mp read
      obtain ⟨records, hrecords, rfl⟩ := readSeed_eq_ok.mp hseed
      obtain ⟨turns, hturns, hinstalled⟩ := ih hrest
      refine ⟨_ :: turns, by simp only [Table.installTurns, hl, hturns]; rfl, .cons ?_ hinstalled⟩
      exact ⟨rfl, rfl, rfl, by simp only [Linked.Holds, hl]; exact ⟨records, hrecords, rfl⟩⟩
    | evicted under =>
      rw [readSeeds_cons_departed (by simp [hl])] at read
      obtain ⟨turns, hturns, hinstalled⟩ := ih read
      refine ⟨_ :: turns, by simp only [Table.installTurns, hl, hturns]; rfl, .cons ?_ hinstalled⟩
      exact ⟨rfl, rfl, rfl, by simp only [Linked.Holds, hl]⟩
    | withdrawn =>
      rw [readSeeds_cons_departed (by simp [hl])] at read
      obtain ⟨turns, hturns, hinstalled⟩ := ih read
      refine ⟨_ :: turns, by simp only [Table.installTurns, hl, hturns]; rfl, .cons ?_ hinstalled⟩
      exact ⟨rfl, rfl, rfl, by simp only [Linked.Holds, hl]⟩

theorem readSeeds_of_pointers {rows : List Linked}
    (readable : ∀ l ∈ rows, l.row.location = .resident →
      ∃ records, Table.readPointer l.pointer = .ok records) :
    ∃ seeds, readSeeds rows = .ok seeds := by
  induction rows with
  | nil => exact ⟨[], rfl⟩
  | cons l rows ih =>
    obtain ⟨rest, hrest⟩ := ih fun x hx => readable x (List.mem_cons_of_mem _ hx)
    by_cases hl : l.row.location = .resident
    · obtain ⟨records, hrecords⟩ := readable l List.mem_cons_self hl
      exact ⟨cut records :: rest, (readSeeds_cons_resident hl).mpr
        ⟨_, rest, rfl, readSeed_eq_ok.mpr ⟨records, hrecords, rfl⟩, hrest⟩⟩
    · exact ⟨rest, by rw [readSeeds_cons_departed hl, hrest]⟩

end Context

end

/-! ## Outstanding calls name the newest turn

While results are awaited the newest turn is in the context and is the only one not closed.
-/

/-- The turn's records owe no result. -/
def Turn.Closed (t : Turn) : Prop := (resting t.records).admitsNewTurn

theorem Turn.Closed.depart {t : Turn} (h : t.Closed) (source : AgentId) (under : Option Span) :
    (t.depart source under).Closed := by
  cases t with
  | mk id role kind label bytes body =>
    cases body <;> cases under <;> first | exact h | rfl

theorem resting_concat (records : List (Recorded Transcript)) (r : Recorded Transcript) :
    resting (records ++ [r]) = (resting records).advance r.value := after_concat _ _ _

theorem advance_extends {p : Transcript} (h : Context.Extends p) (state : State) :
    (state.advance p).admitsNewTurn := by
  cases h <;> rfl

namespace Context

/-- Every turn is closed, but the newest while its results are awaited. -/
def Rested (c : Context) : Prop :=
  if c.state.admitsNewTurn then ∀ t ∈ c.table.turns, t.Closed
  else ∃ init last, c.table.turns = init ++ [last] ∧ last.location = .resident ∧
    ∀ t ∈ init, t.Closed

theorem new_rested (source : AgentId) : (Context.new source).Rested := by
  intro t ht
  cases ht

theorem Rested.ready {c : Context} (h : c.Rested) (ready : c.state.admitsNewTurn) :
    ∀ t ∈ c.table.turns, t.Closed := by
  unfold Rested at h
  rwa [if_pos ready] at h

theorem Rested.waiting {c : Context} (h : c.Rested) (waiting : c.state.admitsNewTurn = false) :
    ∃ init last, c.table.turns = init ++ [last] ∧ last.location = .resident ∧
      ∀ t ∈ init, t.Closed := by
  unfold Rested at h
  rwa [if_neg (by simp [waiting])] at h

theorem rested_of_closed {c : Context} (ready : c.state.admitsNewTurn)
    (h : ∀ t ∈ c.table.turns, t.Closed) : c.Rested := by
  unfold Rested
  rwa [if_pos ready]

theorem rested_of_newest {c : Context} {init : List Turn} {last : Turn}
    (waiting : c.state.admitsNewTurn = false) (newest : c.table.turns = init ++ [last])
    (resident : last.location = .resident) (h : ∀ t ∈ init, t.Closed) : c.Rested := by
  unfold Rested
  rw [if_neg (by simp [waiting])]
  exact ⟨init, last, newest, resident, h⟩

theorem Rested.of_opens {c : Context} (h : c.Rested) {p : Transcript} {id : ℕ} {role : Role}
    {kind : TurnKind} {label : String} (opens : Opens p id role kind label)
    (legal : admissible c.state p) : ∀ t ∈ c.table.turns, t.Closed := by
  apply h.ready
  cases opens with
  | prompt => exact legal
  | note => exact legal
  | reply id message ids stopReason =>
    have hawaits : c.state.awaitsAssistant := by
      unfold admissible at legal
      simp only [Bool.and_eq_true] at legal
      exact legal.2
    cases hs : c.state <;> simp [hs, State.awaitsAssistant, State.admitsNewTurn] at hawaits ⊢

theorem unclosed_of_waiting {c : Context} {init : List Turn} {last : Turn}
    (newest : c.table.turns = init ++ [last]) (resident : last.location = .resident)
    (waiting : c.state.admitsNewTurn = false) : c.unclosedTurn = some last.id := by
  have hstate : (c.state != .readyForUser) = true := by
    cases hs : c.state <;> simp [hs, State.admitsNewTurn] at waiting ⊢
  unfold unclosedTurn
  rw [newest]
  simp [Turn.isResident_eq.mpr resident, hstate]

theorem depart_closed (source : AgentId) (leaving : Span → Prop) [DecidablePred leaving]
    (under : Option Span) {turns : List Turn} (h : ∀ t ∈ turns, t.Closed) :
    ∀ t ∈ turns.map (fun t => if leaving (.single t.id) then t.depart source under else t),
      t.Closed := by
  rw [List.forall_mem_map]
  intro t ht
  split
  · exact (h t ht).depart _ _
  · exact h t ht

theorem withdraw_closed {c : Context} (h : c.Rested) (ready : c.state.admitsNewTurn) (lo : ℕ) :
    ∀ t ∈ (c.withdraw lo).table.turns, t.Closed :=
  depart_closed c.table.source (fun span => lo ≤ span.fst) none (h.ready ready)

theorem withdraw_ready {c : Context} (h : c.Rested) (ready : c.state.admitsNewTurn) (lo : ℕ) :
    (c.withdraw lo).state.admitsNewTurn := by
  have hclosed := withdraw_closed h ready lo
  unfold withdraw
  dsimp only
  cases hlast : ((c.table.withdraw lo).turns.filter Turn.isResident).getLast? with
  | none => rfl
  | some t => exact hclosed t (List.mem_filter.mp (List.mem_of_getLast? hlast)).1

theorem withdraw_rested {c : Context} (h : c.Rested) (ready : c.state.admitsNewTurn) (lo : ℕ) :
    (c.withdraw lo).Rested :=
  rested_of_closed (withdraw_ready h ready lo) (withdraw_closed h ready lo)

variable [Host]

theorem installed_closed {l : Linked} {t : Turn} (h : l.Installed t) : t.Closed := by
  have hbody := h.holds
  unfold Linked.Holds at hbody
  unfold Turn.Closed Turn.records
  cases hl : l.row.location with
  | resident =>
    simp only [hl] at hbody
    obtain ⟨records, -, hb⟩ := hbody
    rw [hb]
    exact resting_cut records
  | evicted under =>
    simp only [hl] at hbody
    rw [hbody]
    rfl
  | withdrawn =>
    simp only [hl] at hbody
    rw [hbody]
    rfl

theorem forall₂_closed {rows : List Linked} {turns : List Turn}
    (h : List.Forall₂ Linked.Installed rows turns) : ∀ t ∈ turns, t.Closed := by
  induction h with
  | nil => simp
  | cons hl _ ih =>
    rw [List.forall_mem_cons]
    exact ⟨installed_closed hl, ih⟩

/-- Every change leaves at most the newest turn unclosed. -/
theorem Change.rested {c c' : Context} {r : Recorded Transcript} (h : Change c r c')
    (blank : Blank c) (rested : c.Rested) : c'.Rested := by
  cases h with
  | system => exact rested
  | @link locus turns evictions seeds table first sound read installed =>
    have hstate := (blank first).2.2
    have hready : c.state.admitsNewTurn := by
      rw [hstate]
      rfl
    obtain ⟨rows, hrows, hinstalled⟩ := installTurns_of_read read
    unfold Table.install at installed
    rw [hrows] at installed
    cases installed
    exact rested_of_closed hready (forall₂_closed hinstalled)
  | @evict locus e evictable =>
    by_cases ready : c.state.admitsNewTurn
    · have hclosed := depart_closed c.table.source (fun span => span ≤ e.span) (some e.span)
        (rested.ready ready)
      exact rested_of_closed ready hclosed
    · have waiting : c.state.admitsNewTurn = false := by simpa using ready
      obtain ⟨init, last, newest, resident, hinit⟩ := rested.waiting waiting
      -- The eviction spares the turn being written, so the newest stays as it is.
      have hspared := evictable.spared last.id (unclosed_of_waiting newest resident waiting)
      have hkept : ¬ Span.single last.id ≤ e.span := hspared
      have hturns : (c.table.evict e).turns = (init.map fun t =>
          if Span.single t.id ≤ e.span then t.depart c.table.source (some e.span) else t) ++
            [last] := by
        simp [Table.evict, Table.depart, newest, hkept]
      exact rested_of_newest waiting hturns resident (depart_closed _ (fun span => span ≤ e.span) _ hinit)
  | withdraw edit ready uncut => exact withdraw_rested rested ready _
  | @opened r id bytes role kind label opens legal fresh =>
    have hclosed := rested.of_opens opens legal
    by_cases ready : (c.state.advance r.value).admitsNewTurn
    · apply rested_of_closed ready
      intro t ht
      rcases List.mem_append.mp ht with ht | ht
      · exact hclosed t ht
      · rw [List.mem_singleton.mp ht]
        show ((State.readyForUser).advance r.value).admitsNewTurn
        cases hp : r.value <;> rw [hp] at opens ready <;> cases opens <;> first | rfl | exact ready
    · have waiting : (c.state.advance r.value).admitsNewTurn = false := by simpa using ready
      exact rested_of_newest waiting rfl rfl hclosed
  | @extended r init last records origin bytes adds legal newest here =>
    apply rested_of_closed (advance_extends adds _)
    have hinit : ∀ t ∈ init, t.Closed := by
      by_cases ready : c.state.admitsNewTurn
      · intro t ht
        exact rested.ready ready t (by simp [newest, ht])
      · obtain ⟨init', last', newest', -, hinit⟩ := rested.waiting (by simpa using ready)
        rw [newest] at newest'
        rw [(List.append_inj_left' newest' rfl : init = init')]
        exact hinit
    intro t ht
    rcases List.mem_append.mp ht with ht | ht
    · exact hinit t ht
    · rw [List.mem_singleton.mp ht]
      show (resting (records ++ [r])).admitsNewTurn
      rw [resting_concat]
      exact advance_extends adds _
  | @adrift r legal adds empty =>
    apply rested_of_closed (advance_extends adds _)
    intro t ht
    rw [show c.table.turns = [] from empty] at ht
    cases ht

end Context

end Ral.Session
