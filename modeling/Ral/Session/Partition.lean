import Ral.Session.Ledger
import Ral.Session.Steps

/-! # The table partitions history

The fold refines the ledger. On every context a fold reaches the turns are in id order, each
is placed by the evictions that cover it, and the frontier covers the ones not withdrawn.
-/

namespace Ral.Session
open Ral.Record (Recorded Locus)

namespace Table

def ledger (table : Table) : Ledger :=
  ⟨table.turns.map fun t => (t.id, t.location), table.evictions.map fun e => (e.1.span, e.2)⟩

@[simp] theorem ledger_ids (table : Table) : table.ledger.ids = table.turns.map Turn.id := by
  simp [ledger, Ledger.ids]

@[simp] theorem ledger_spans (table : Table) : table.ledger.spans = table.spans := by
  simp [ledger, Ledger.spans, spans]

theorem ledger_depart (table : Table) (leaving : Span → Prop) [DecidablePred leaving]
    (under : Option Span) :
    (table.depart leaving under).ledger = table.ledger.depart leaving under := by
  unfold ledger depart Ledger.depart
  simp only [List.map_map, Ledger.mk.injEq]
  constructor
  · apply List.map_congr_left
    intro t _
    simp only [Function.comp_apply]
    split <;> simp
  · apply List.map_congr_left
    intro e _
    simp only [Function.comp_apply]
    split <;> rfl

theorem ledger_withdraw (table : Table) (lo : ℕ) :
    (table.withdraw lo).ledger = table.ledger.withdraw lo := ledger_depart _ _ _

theorem ledger_evict (table : Table) (e : Eviction) :
    (table.evict e).ledger = table.ledger.evict e.span := by
  have h := ledger_depart table (fun span => span ≤ e.span) (some e.span)
  have hturns := congrArg Ledger.turns h
  have hevictions := congrArg Ledger.evictions h
  simp only [ledger] at hturns hevictions
  simp only [evict, Ledger.evict, ledger, List.map_append, hturns, hevictions]
  rfl

theorem mem_ledger {table : Table} {id : ℕ} {loc : Location} :
    (id, loc) ∈ table.ledger.turns ↔ ∃ t ∈ table.turns, t.id = id ∧ t.location = loc := by
  simp [ledger]

theorem mem_of_turn {table : Table} {id : ℕ} {t : Turn} (h : table.turn id = some t) :
    (id, t.location) ∈ table.ledger.turns := by
  have hid := List.find?_some h
  exact mem_ledger.mpr ⟨t, List.mem_of_find?_eq_some h, by simpa using hid, rfl⟩

theorem turn_eq_some {table : Table} (ordered : table.ledger.ids.Pairwise (· < ·)) {t : Turn}
    (ht : t ∈ table.turns) : table.turn t.id = some t := by
  unfold turn
  cases hf : table.turns.find? fun x => x.id = t.id with
  | none =>
    rw [List.find?_eq_none] at hf
    have := hf t ht
    simp at this
  | some x =>
    have hid : x.id = t.id := by simpa using List.find?_some hf
    have hnodup : (table.turns.map Turn.id).Nodup := by
      rw [← ledger_ids]
      exact ordered.imp fun hlt => Nat.ne_of_lt hlt
    rw [List.inj_on_of_nodup_map hnodup (List.mem_of_find?_eq_some hf) ht hid]

theorem any_isWithdrawn {table : Table} (ordered : table.ledger.ids.Pairwise (· < ·)) (id : ℕ) :
    (table.turn id).any Turn.isWithdrawn = table.ledger.gone id := by
  rw [Bool.eq_iff_iff]
  unfold Ledger.gone
  rw [decide_eq_true_iff, mem_ledger]
  constructor
  · intro h
    cases ht : table.turn id with
    | none => simp [ht] at h
    | some t =>
      have hw : t.isWithdrawn = true := by simpa [ht] using h
      exact ⟨t, List.mem_of_find?_eq_some ht, by simpa using List.find?_some ht,
        Turn.isWithdrawn_eq.mp hw⟩
  · intro h
    obtain ⟨t, hmem, rfl, hloc⟩ := h
    rw [turn_eq_some ordered hmem]
    simpa using Turn.isWithdrawn_eq.mpr hloc

/-! ## Links -/

section Links
variable [Host]

theorem installTurns_marks {rows : List Linked} {seeds : List (List (Recorded Transcript))}
    {turns : List Turn} (h : installTurns rows seeds = some turns) :
    (turns.map fun t => (t.id, t.location)) = rows.map fun l => (l.row.id, l.row.location) := by
  induction rows generalizing seeds turns with
  | nil =>
    simp only [installTurns, Option.some.injEq] at h
    simp [← h]
  | cons l rows ih =>
    obtain ⟨row, pointer⟩ := l
    unfold installTurns at h
    cases hloc : row.location with
    | resident =>
      cases seeds with
      | nil => simp [hloc] at h
      | cons records seeds =>
        simp only [hloc, Option.map_eq_some_iff] at h
        obtain ⟨rest, hrest, rfl⟩ := h
        rw [List.map_cons, List.map_cons, ih hrest, hloc]
        rfl
    | evicted under =>
      simp only [hloc, Option.map_eq_some_iff] at h
      obtain ⟨rest, hrest, rfl⟩ := h
      rw [List.map_cons, List.map_cons, ih hrest, hloc]
      rfl
    | withdrawn =>
      simp only [hloc, Option.map_eq_some_iff] at h
      obtain ⟨rest, hrest, rfl⟩ := h
      rw [List.map_cons, List.map_cons, ih hrest, hloc]
      rfl

omit [Host] in
theorem installEvictions_marks (turn : ℕ → Option Turn) (evictions : List Eviction) :
    ((installEvictions turn evictions).map fun e => (e.1.span, e.2)) =
      Ledger.stampAll (fun id => (turn id).any Turn.isWithdrawn) (evictions.map Eviction.span) := by
  induction evictions with
  | nil => rfl
  | cons e later ih => simp only [installEvictions, List.map_cons, Ledger.stampAll, ih,
      Ledger.stamp]

/-- What a link leaves: its rows as placed, its evictions stamped. -/
theorem install_ledger {table table' : Table} {rows : List Linked} {evictions : List Eviction}
    {seeds : List (List (Recorded Transcript))}
    (ordered : (rows.map fun l => l.row.id).Pairwise (· < ·))
    (h : table.install rows evictions seeds = some table') :
    table'.ledger.turns = rows.map (fun l => (l.row.id, l.row.location)) ∧
      table'.ledger.evictions =
        Ledger.stampAll table'.ledger.gone (evictions.map Eviction.span) := by
  unfold install at h
  rw [Option.map_eq_some_iff] at h
  obtain ⟨turns, hturns, rfl⟩ := h
  have hmarks := installTurns_marks hturns
  refine ⟨hmarks, ?_⟩
  have hordered : ({ table with turns := turns } : Table).ledger.ids.Pairwise (· < ·) := by
    have hids : ({ table with turns := turns } : Table).ledger.ids = rows.map fun l => l.row.id := by
      simp only [Ledger.ids, ledger, hmarks, List.map_map]
      rfl
    rw [hids]
    exact ordered
  have hany := funext (any_isWithdrawn hordered)
  simp only [ledger, installEvictions_marks, hany]
  rfl

end Links

end Table

/-! ## Links a live session writes -/

/-- The ids a record names for turns are 64-bit. -/
def Transcript.InRange (p : Transcript) : Prop :=
  (∀ id, Context.opens p = some id → id ≤ u64Max) ∧
    ∀ turns evictions, p = .inherited turns evictions → ∀ l ∈ turns, l.row.id ≤ u64Max

/-- A link's eviction that opens at a withdrawn turn covers withdrawn turns only. -/
def HonestLink (turns : List Linked) (evictions : List Eviction) : Prop :=
  ∀ e ∈ evictions, (∃ l ∈ turns, l.row.id = e.span.fst ∧ l.row.location = .withdrawn) →
    ∀ l ∈ turns, .single l.row.id ≤ e.span → l.row.location = .withdrawn

def Transcript.Honest (p : Transcript) : Prop :=
  ∀ turns evictions, p = .inherited turns evictions → HonestLink turns evictions

namespace Context

theorem SoundLink.installed [Host] {turns : List Linked} {evictions : List Eviction}
    (h : SoundLink turns evictions) (range : ∀ l ∈ turns, l.row.id ≤ u64Max)
    {table table' : Table} {seeds : List (List (Recorded Transcript))}
    (hi : table.install turns evictions seeds = some table') : table'.ledger.Sound := by
  obtain ⟨hturns, hevictions⟩ := Table.install_ledger h.ordered hi
  have hids : table'.ledger.ids = turns.map fun l => l.row.id := by
    simp only [Ledger.ids, hturns, List.map_map]
    rfl
  have hspans : table'.ledger.spans = evictions.map Eviction.span := by
    simp only [Ledger.spans, hevictions, Ledger.stampAll_spans]
  constructor
  · rw [hids]
    exact h.ordered
  · rw [hids, List.forall_mem_map]
    exact range
  · rw [hspans]
    exact h.laminar
  · rw [hids, hspans, List.forall_mem_map]
    intro e he
    simpa using h.carried e he
  · rw [hturns, hspans, List.forall_mem_map]
    exact h.placed
  · rw [hspans]
    exact hevictions

theorem HonestLink.installed [Host] {turns : List Linked} {evictions : List Eviction}
    (honest : HonestLink turns evictions) (h : SoundLink turns evictions)
    {table table' : Table} {seeds : List (List (Recorded Transcript))}
    (hi : table.install turns evictions seeds = some table') : table'.ledger.Honest := by
  obtain ⟨hturns, hevictions⟩ := Table.install_ledger h.ordered hi
  have hspans : table'.ledger.spans = evictions.map Eviction.span := by
    simp only [Ledger.spans, hevictions, Ledger.stampAll_spans]
  unfold Ledger.Honest Ledger.gone
  rw [hspans, hturns, List.forall_mem_map]
  intro e he hg
  rw [List.forall_mem_map]
  apply honest e he
  rw [decide_eq_true_iff, List.mem_map] at hg
  obtain ⟨l, hl, heq⟩ := hg
  exact ⟨l, hl, (Prod.mk.inj heq).1, (Prod.mk.inj heq).2⟩

/-! ## Steps -/

theorem lt_of_fresh {c : Context} (ordered : c.table.ledger.ids.Pairwise (· < ·)) {id : ℕ}
    (fresh : ∀ reach, c.reach = some reach → reach < id) : ∀ i ∈ c.table.ledger.ids, i < id := by
  rw [Table.ledger_ids] at ordered ⊢
  rcases List.eq_nil_or_concat' c.table.turns with hnil | ⟨init, last, hturns⟩
  · simp [hnil]
  · have hlast : last.id < id := fresh last.id (by simp [reach, hturns])
    rw [hturns, List.map_append, List.pairwise_append] at ordered
    rw [hturns, List.map_append]
    intro i hi
    rcases List.mem_append.mp hi with hi | hi
    · have := ordered.2.2 i hi last.id (by simp)
      omega
    · have : i = last.id := by simpa using hi
      omega

theorem ledger_opened (table : Table) (r : Recorded Transcript) (id bytes : ℕ) (role : Role)
    (kind : TurnKind) (label : String) :
    Table.ledger { table with
      turns := table.turns ++ [⟨id, role, kind, label, bytes, .here [r] none⟩] } =
      table.ledger.openTurn id := by
  simp [Table.ledger, Ledger.openTurn, Turn.location]

theorem ledger_extended {table : Table} {init : List Turn} {last : Turn}
    {records records' : List (Recorded Transcript)} {origin : Option Pointer} {bytes : ℕ}
    (newest : table.turns = init ++ [last]) (here : last.body = .here records origin) :
    Table.ledger { table with
      turns := init ++ [{ last with bytes := bytes, body := .here records' origin }] } =
      table.ledger := by
  simp [Table.ledger, newest, Turn.location, here]

theorem Evictable.ledger {c : Context} {span : Span} (h : Evictable c span)
    (sound : c.table.ledger.Sound) : c.table.ledger.Evictable span := by
  obtain ⟨t, ht, htw⟩ := h.opens
  obtain ⟨u, hu, huw⟩ := h.closes
  refine ⟨⟨_, Table.mem_of_turn ht, htw⟩, ⟨_, Table.mem_of_turn hu, huw⟩, ?_⟩
  intro s hs
  have hcarried := sound.carried s hs
  have hroom := sound.bounded s.snd hcarried.2
  rw [Table.ledger_spans] at hs
  apply Intervals.settles_of_uncut (h.startsItem s hs)
  intro hcut
  -- The end a cut is checked at is the one past it, short of the last id there is.
  have hnext := h.endsItem s hs
  have hsat : saturatingAdd span.snd 1 = span.snd + 1 := by
    unfold saturatingAdd
    omega
  rw [hsat] at hnext
  omega

variable [Host]

theorem Change.sound {c c' : Context} {r : Recorded Transcript} (h : Change c r c')
    (sound : c.table.ledger.Sound) (range : r.value.InRange) : c'.table.ledger.Sound := by
  cases h with
  | system => exact sound
  | link first soundLink read installed => exact soundLink.installed (range.2 _ _ rfl) installed
  | evict evictable =>
    show (c.table.evict _).ledger.Sound
    rw [Table.ledger_evict]
    exact sound.evict (evictable.ledger sound)
  | withdraw edit ready uncut =>
    show (c.table.withdraw _).ledger.Sound
    rw [Table.ledger_withdraw]
    exact sound.withdraw _
  | @opened r id bytes role kind label opens legal fresh =>
    rw [ledger_opened]
    exact sound.open (lt_of_fresh sound.ordered fresh) (range.1 id (opens_of_opened opens))
  | extended adds legal newest here =>
    rw [ledger_extended newest here]
    exact sound
  | adrift => exact sound

/-- And honest, where a link is. -/
theorem Change.honest {c c' : Context} {r : Recorded Transcript} (h : Change c r c')
    (sound : c.table.ledger.Sound) (honest : c.table.ledger.Honest)
    (honestLink : r.value.Honest) : c'.table.ledger.Honest := by
  cases h with
  | system => exact honest
  | link first soundLink read installed =>
    exact HonestLink.installed (honestLink _ _ rfl) soundLink installed
  | evict evictable =>
    show (c.table.evict _).ledger.Honest
    rw [Table.ledger_evict]
    exact honest.evict sound (evictable.ledger sound)
  | withdraw edit ready uncut =>
    show (c.table.withdraw _).ledger.Honest
    rw [Table.ledger_withdraw]
    exact honest.withdraw sound _
  | @opened r id bytes role kind label opens legal fresh =>
    rw [ledger_opened]
    exact honest.open sound (lt_of_fresh sound.ordered fresh)
  | extended adds legal newest here =>
    rw [ledger_extended newest here]
    exact honest
  | adrift => exact honest

omit [Host] in
theorem ledger_depart_ids (table : Table) (leaving : Span → Prop) [DecidablePred leaving]
    (under : Option Span) : (table.depart leaving under).ledger.ids = table.ledger.ids := by
  rw [Table.ledger_depart, Ledger.depart_ids]

theorem Change.ids {c c' : Context} {r : Recorded Transcript} (h : Change c r c')
    (blank : Blank c) : c.table.ledger.ids <+: c'.table.ledger.ids := by
  cases h with
  | system => exact List.prefix_rfl
  | link first soundLink read installed =>
    rw [Table.ledger_ids, (blank first).1]
    exact List.nil_prefix
  | evict evictable =>
    show c.table.ledger.ids <+: (c.table.evict _).ledger.ids
    simp only [Table.ledger_evict, Ledger.evict_ids, List.prefix_rfl]
  | withdraw edit ready uncut =>
    show c.table.ledger.ids <+: (c.table.withdraw _).ledger.ids
    simp only [Table.withdraw, ledger_depart_ids, List.prefix_rfl]
  | opened opens legal fresh =>
    rw [ledger_opened]
    simp [Ledger.ids, Ledger.openTurn]
  | extended adds legal newest here =>
    simp only [ledger_extended newest here, List.prefix_rfl]
  | adrift => exact List.prefix_rfl

end Context

/-! ## The partition -/

namespace Ledger

theorem stampAll_apart {gone : ℕ → Bool} {made : List Span} (h : Intervals.Laminar made) :
    (stampAll gone made).Pairwise fun e later =>
      e.2 = .resident → Intervals.Apart e.1 later.1 := by
  induction made with
  | nil => exact List.Pairwise.nil
  | cons s made ih =>
    obtain ⟨hhead, htail⟩ := List.pairwise_cons.mp h
    rw [stampAll, List.pairwise_cons]
    refine ⟨?_, ih htail⟩
    intro later hlater hres
    have hmem : later.1 ∈ made := by
      have := List.mem_map_of_mem (f := Prod.fst) hlater
      rwa [stampAll_spans] at this
    have hheld : heldBy s made = .resident := by
      unfold stamp at hres
      split at hres
      · cases hres
      · exact hres
    rcases hhead later.1 hmem with hle | hap
    · exact absurd hle (heldBy_eq_resident.mp hheld later.1 hmem)
    · exact hap

/-- What a turn that is not withdrawn lies under: a resident eviction, no other meeting it. -/
theorem Sound.exists_resident {l : Ledger} (h : l.Sound) (honest : l.Honest) {x : ℕ × Location}
    (hx : x ∈ l.turns) (hw : x.2 ≠ .withdrawn) (hr : x.2 ≠ .resident) :
    ∃ e ∈ l.evictions, e.2 = .resident ∧ Span.single x.1 ≤ e.1 := by
  have hplaced := h.placed x hx hw
  have hcovered : ∃ s ∈ l.spans, Span.single x.1 ≤ s := by
    by_contra hnone
    apply hr
    rw [hplaced]
    apply heldBy_eq_resident.mpr
    intro s hs hle
    exact hnone ⟨s, hs, hle⟩
  obtain ⟨xs, s, ys, hspans, hle, hlast⟩ := Intervals.exists_last_cover hcovered
  have hmem := mem_stampAll l.gone xs s ys
  rw [← hspans, ← h.stamped] at hmem
  refine ⟨_, hmem, ?_, hle⟩
  have hgone : l.gone s.fst = false := by
    rw [Bool.eq_false_iff]
    intro hg
    have hs : s ∈ l.spans := by simp [hspans]
    exact hw (honest s hs hg x hx hle)
  unfold stamp
  rw [hgone]
  apply heldBy_eq_resident.mpr
  intro later hlater hsl
  exact hlast later hlater (le_trans hle hsl)

end Ledger

namespace Table
open Ledger (heldBy_eq_resident heldBy_eq_evicted)

/-- Every turn and eviction, in no order. -/
def unsorted (table : Table) : List Item :=
  table.evictions.reverse.map Item.eviction ++ table.turns.map Item.turn

theorem items_perm (table : Table) : table.items.Perm table.unsorted :=
  List.perm_insertionSort _ _

theorem mem_frontier {table : Table} {i : Item} :
    i ∈ table.frontier ↔ i ∈ table.unsorted ∧ i.location = .resident := by
  unfold frontier
  rw [List.mem_filter, table.items_perm.mem_iff]
  cases hl : i.location <;> simp [Item.isResident, Location.isResident, hl]

theorem mem_unsorted {table : Table} {i : Item} :
    i ∈ table.unsorted ↔
      (∃ e ∈ table.evictions, i = .eviction e) ∨ ∃ t ∈ table.turns, i = .turn t := by
  unfold unsorted
  simp [List.mem_append, eq_comm]

theorem turn_apart_eviction {table : Table} (sound : table.ledger.Sound) {t : Turn}
    (ht : t ∈ table.turns) (hr : t.location = .resident) {e : Eviction × Location}
    (he : e ∈ table.evictions) : Intervals.Apart e.1.span (Span.single t.id) := by
  have hplaced := sound.placed (t.id, t.location) (mem_ledger.mpr ⟨t, ht, rfl, rfl⟩)
    (by simp [hr])
  rw [hr] at hplaced
  apply Intervals.Apart.symm
  apply Intervals.apart_pure_of_not_le
  apply heldBy_eq_resident.mp hplaced.symm
  rw [ledger_spans]
  exact List.mem_map_of_mem he

/-- Resident items have no turn in common. -/
theorem unsorted_apart {table : Table} (sound : table.ledger.Sound) :
    table.unsorted.Pairwise fun a b =>
      a.isResident → b.isResident → Intervals.Apart a.span b.span := by
  have resident_of {loc : Location} (h : loc.isResident = true) : loc = .resident := by
    cases loc <;> simp_all [Location.isResident]
  unfold unsorted
  rw [List.pairwise_append]
  refine ⟨?_, ?_, ?_⟩
  · rw [List.pairwise_map, List.pairwise_reverse]
    have hstamps := @Ledger.stampAll_apart table.ledger.gone _ sound.laminar
    rw [← sound.stamped] at hstamps
    have := List.pairwise_map.mp hstamps
    apply this.imp
    intro e later hap _ hr
    exact (hap (resident_of hr)).symm
  · rw [List.pairwise_map]
    have hordered := sound.ordered
    rw [ledger_ids, List.pairwise_map] at hordered
    apply hordered.imp
    intro a b hlt _ _
    exact Or.inl hlt
  · intro a ha b hb _ hbr
    obtain ⟨e, he, rfl⟩ := List.mem_map.mp ha
    obtain ⟨t, ht, rfl⟩ := List.mem_map.mp hb
    exact turn_apart_eviction sound ht (resident_of hbr) (List.mem_reverse.mp he)

theorem key_le {a b : Item} (h : a.key ≤ b.key) : a.span.fst ≤ b.span.fst := by
  unfold Item.key at h
  rw [Prod.Lex.toLex_le_toLex] at h
  rcases h with h | ⟨h, -⟩
  · exact h.le
  · exact h.le

theorem frontier_ordered {table : Table} (sound : table.ledger.Sound) :
    table.frontier.Pairwise fun a b => a.span.snd < b.span.fst := by
  have hsorted : table.items.Pairwise fun a b => a.key ≤ b.key :=
    List.pairwise_insertionSort _ _
  have hapart : table.items.Pairwise fun a b =>
      a.isResident → b.isResident → Intervals.Apart a.span b.span := by
    apply (table.items_perm.pairwise_iff _).mpr (unsorted_apart sound)
    intro a b h hb ha
    exact (h ha hb).symm
  unfold frontier
  rw [List.pairwise_filter]
  apply (hsorted.and hapart).imp
  intro a b h ha hb
  have hkey := key_le h.1
  rcases h.2 ha hb with hlt | hlt
  · exact hlt
  · have := b.span.fst_le_snd
    omega

theorem frontier_covers {table : Table} (sound : table.ledger.Sound)
    (honest : table.ledger.Honest) {t : Turn} (ht : t ∈ table.turns)
    (hw : t.location ≠ .withdrawn) : ∃ i ∈ table.frontier, Span.single t.id ≤ i.span := by
  by_cases hr : t.location = .resident
  · exact ⟨.turn t, mem_frontier.mpr ⟨mem_unsorted.mpr (Or.inr ⟨t, ht, rfl⟩), hr⟩, le_refl _⟩
  · obtain ⟨e, he, her, hle⟩ :=
      sound.exists_resident honest (mem_ledger.mpr ⟨t, ht, rfl, rfl⟩) hw hr
    obtain ⟨x, hx, rfl⟩ := List.mem_map.mp he
    exact ⟨.eviction x, mem_frontier.mpr ⟨mem_unsorted.mpr (Or.inl ⟨x, hx, rfl⟩), her⟩, hle⟩

/-- Of items apart, one covers a turn at most. -/
theorem countP_eq_one {items : List Item} {id : ℕ}
    (ordered : items.Pairwise fun a b => a.span.snd < b.span.fst)
    (covered : ∃ i ∈ items, Span.single id ≤ i.span) :
    (items.countP fun i => decide (Span.single id ≤ i.span)) = 1 := by
  obtain ⟨i, hi, hle⟩ := covered
  obtain ⟨before, later, rfl⟩ := List.append_of_mem hi
  rw [List.pairwise_append, List.pairwise_cons] at ordered
  obtain ⟨-, ⟨hlater, -⟩, hbefore⟩ := ordered
  have hi1 : i.span.fst ≤ id := hle.1
  have hi2 : id ≤ i.span.snd := hle.2
  have hzero : (before.countP fun i => decide (Span.single id ≤ i.span)) = 0 := by
    rw [List.countP_eq_zero]
    intro a ha hc
    have := hbefore a ha i List.mem_cons_self
    have ha2 : id ≤ a.span.snd := (of_decide_eq_true hc).2
    omega
  have hzero' : (later.countP fun i => decide (Span.single id ≤ i.span)) = 0 := by
    rw [List.countP_eq_zero]
    intro b hb hc
    have := hlater b hb
    have hb1 : b.span.fst ≤ id := (of_decide_eq_true hc).1
    omega
  rw [List.countP_append, List.countP_cons_of_pos (by simpa using hle), hzero, hzero']

def Outermost (table : Table) (e : Eviction) : Prop :=
  ∀ s ∈ table.spans, s ≤ e.span ∨ Intervals.Apart s e.span

theorem outermost_of_resident {table : Table} (sound : table.ledger.Sound)
    {e : Eviction × Location} (he : e ∈ table.evictions) (hr : e.2 = .resident) :
    table.Outermost e.1 := by
  intro s hs
  obtain ⟨x, hx, rfl⟩ := List.mem_map.mp hs
  obtain ⟨before, later, hsplit⟩ := List.append_of_mem he
  have hstamps := @Ledger.stampAll_apart table.ledger.gone _ sound.laminar
  have hlaminar := sound.laminar
  rw [← sound.stamped] at hstamps
  rw [ledger_spans] at hlaminar
  simp only [ledger, List.pairwise_map] at hstamps
  simp only [spans, Intervals.Laminar, List.pairwise_map] at hlaminar
  rw [hsplit, List.pairwise_append, List.pairwise_cons] at hstamps hlaminar
  rw [hsplit] at hx
  rcases List.mem_append.mp hx with hx | hx
  · exact hlaminar.2.2 x hx e List.mem_cons_self
  · rcases List.mem_cons.mp hx with rfl | hx
    · exact Or.inl (le_refl _)
    · exact Or.inr (hstamps.2.1.1 x hx hr).symm

/-- What holds of a table on every reachable context. -/
structure Partitioned (table : Table) : Prop where
  ordered : (table.turns.map Turn.id).Pairwise (· < ·)
  laminar : Intervals.Laminar table.spans
  /-- A turn is withdrawn, or in the context with no eviction covering it, or under the first
  eviction to cover it, which lies within every other that does. -/
  placed : ∀ t ∈ table.turns, t.location = .withdrawn ∨
    (t.location = .resident ∧ ∀ s ∈ table.spans, ¬ Span.single t.id ≤ s) ∨
    ∃ s, t.location = .evicted s ∧
      table.spans.find? (fun o => decide (Span.single t.id ≤ o)) = some s ∧
      ∀ o ∈ table.spans, Span.single t.id ≤ o → s ≤ o
  items : ∀ i ∈ table.frontier, (∃ t ∈ table.turns, i = .turn t ∧ t.location = .resident) ∨
    ∃ e ∈ table.evictions, i = .eviction e ∧ e.2 = .resident ∧ table.Outermost e.1
  disjoint : table.frontier.Pairwise fun a b => a.span.snd < b.span.fst
  covers : ∀ t ∈ table.turns, t.location ≠ .withdrawn →
    (table.frontier.countP fun i => decide (Span.single t.id ≤ i.span)) = 1

theorem placed_of_sound {table : Table} (sound : table.ledger.Sound) {t : Turn}
    (ht : t ∈ table.turns) : t.location = .withdrawn ∨
    (t.location = .resident ∧ ∀ s ∈ table.spans, ¬ Span.single t.id ≤ s) ∨
    ∃ s, t.location = .evicted s ∧
      table.spans.find? (fun o => decide (Span.single t.id ≤ o)) = some s ∧
      ∀ o ∈ table.spans, Span.single t.id ≤ o → s ≤ o := by
  have hplaced := sound.placed (t.id, t.location) (mem_ledger.mpr ⟨t, ht, rfl, rfl⟩)
  have hlaminar := sound.laminar
  rw [ledger_spans] at hplaced hlaminar
  cases hl : t.location with
  | withdrawn => exact Or.inl rfl
  | resident =>
    right
    left
    exact ⟨rfl, heldBy_eq_resident.mp (hl ▸ hplaced (by simp [hl])).symm⟩
  | evicted s =>
    right
    right
    have hheld := (hl ▸ hplaced (by simp [hl])).symm
    have hfind := (heldBy_eq_evicted hlaminar).mp hheld
    refine ⟨s, rfl, hfind, ?_⟩
    intro o ho hle
    obtain ⟨hs, before, later, hsplit, hnone⟩ := List.find?_eq_some_iff_append.mp hfind
    rw [hsplit] at hlaminar ho
    rcases List.mem_append.mp ho with ho | ho
    · have := hnone o ho
      simp [hle] at this
    · rcases List.mem_cons.mp ho with rfl | ho
      · exact le_refl _
      · exact hlaminar.le_of_covers (of_decide_eq_true hs) ho hle

theorem partitioned_of_sound {table : Table} (sound : table.ledger.Sound)
    (honest : table.ledger.Honest) : table.Partitioned := by
  constructor
  · rw [← ledger_ids]
    exact sound.ordered
  · rw [← ledger_spans]
    exact sound.laminar
  · intro t ht
    exact placed_of_sound sound ht
  · intro i hi
    obtain ⟨hmem, hr⟩ := mem_frontier.mp hi
    rcases mem_unsorted.mp hmem with ⟨e, he, rfl⟩ | ⟨t, ht, rfl⟩
    · exact Or.inr ⟨e, he, rfl, hr, outermost_of_resident sound he hr⟩
    · exact Or.inl ⟨t, ht, rfl, hr⟩
  · exact frontier_ordered sound
  · intro t ht hw
    exact countP_eq_one (frontier_ordered sound) (frontier_covers sound honest ht hw)

end Table

namespace Context

theorem new_sound (source : AgentId) : (Context.new source).table.ledger.Sound :=
  Ledger.Sound.empty

theorem new_honest (source : AgentId) : (Context.new source).table.ledger.Honest :=
  Ledger.Honest.empty

section Replayed
variable [Host]

/-- Whatever a fold admits, the table it reaches is partitioned, and every row it had on the
way is still there under its id. -/
theorem table_partitions_history {source : AgentId} {records : List (Recorded Transcript)}
    {c : Context} (range : ∀ r ∈ records, r.value.InRange)
    (honest : ∀ r ∈ records, r.value.Honest) (h : (Context.new source).replay records = .ok c) :
    c.table.Partitioned ∧ ∀ before later mid, records = before ++ later →
      (Context.new source).replay before = .ok mid →
        mid.table.turns.map Turn.id <+: c.table.turns.map Turn.id := by
  constructor
  · have hboth : c.table.ledger.Sound ∧ c.table.ledger.Honest := by
      apply replay_invariant
        (P := fun c => c.table.ledger.Sound ∧ c.table.ledger.Honest)
        (Q := fun r => r.value.InRange ∧ r.value.Honest) _ _ ⟨new_sound source, new_honest source⟩ h
      · intro c c' r hc hr hchange
        exact ⟨hchange.sound hc.1 hr.1, hchange.honest hc.1 hc.2 hr.2⟩
      · intro r hr
        exact ⟨range r hr, honest r hr⟩
    exact Table.partitioned_of_sound hboth.1 hboth.2
  · intro before later mid hsplit hmid
    subst hsplit
    obtain ⟨mid', hbefore, hlater⟩ := replay_append.mp h
    rw [hmid] at hbefore
    cases hbefore
    have hblank : Blank mid := replay_invariant (Q := fun _ => True)
      (fun _ _ hchange => hchange.blank) (fun _ _ => trivial) (new_blank source) hmid
    rw [← Table.ledger_ids, ← Table.ledger_ids]
    have hkept : Blank c ∧ mid.table.ledger.ids <+: c.table.ledger.ids := by
      apply replay_invariant (Q := fun _ => True)
        (P := fun c => Blank c ∧ mid.table.ledger.ids <+: c.table.ledger.ids) _
        (fun _ _ => trivial) ⟨hblank, List.prefix_rfl⟩ hlater
      intro c c' r hc _ hchange
      exact ⟨hchange.blank, hc.2.trans (hchange.ids hc.1)⟩
    exact hkept.2

end Replayed

/-! ## Which eviction stamps a turn -/

/-- A run with no files to read back. -/
@[reducible] def fileless : Host := ⟨fun _ _ => .ok .other, fun _ => "record.jsonl", fun _ => 0, id⟩

def noted (records : List Transcript) : List (Recorded Transcript) :=
  records.map fun p => ⟨⟨⟨1, 0⟩, ⟨0, 1⟩, ⟨0, Record.Sum.zero_lt⟩⟩, p⟩

/-- Two notes, the first evicted alone and then the two together. -/
def rewrittenNotes : List (Recorded Transcript) :=
  noted [.import 1 (.user "one"), .import 2 (.user "two"),
    .evicted ⟨.single 1, none, .model⟩, .evicted ⟨⟨(1, 2), by decide⟩, none, .model⟩]

/-- A link whose one eviction opens at a withdrawn turn and covers another that is not. -/
def halfWithdrawn : List (Recorded Transcript) :=
  let row id location : Linked := ⟨⟨id, .user, .inherited, "", 0, location⟩, ⟨1, []⟩⟩
  noted [.inherited [row 1 .withdrawn, row 2 (.evicted ⟨(1, 2), by decide⟩)]
    [⟨⟨(1, 2), by decide⟩, none, .model⟩]]

theorem rewritten_in_range : ∀ r ∈ rewrittenNotes, r.value.InRange := by
  intro r hr
  obtain ⟨p, hp, rfl⟩ := List.mem_map.mp hr
  simp only [List.mem_cons, List.not_mem_nil, or_false] at hp
  rcases hp with rfl | rfl | rfl | rfl <;> simp [Transcript.InRange, opens, u64Max]

theorem rewritten_honest : ∀ r ∈ rewrittenNotes, r.value.Honest := by
  intro r hr turns evictions hp
  obtain ⟨p, hmem, rfl⟩ := List.mem_map.mp hr
  simp only [List.mem_cons, List.not_mem_nil, or_false] at hmem
  rcases hmem with rfl | rfl | rfl | rfl <;> cases hp

/-- A turn evicted alone and then beside another stays under the first eviction, and on a link
of its own making a turn may lie under an eviction that is withdrawn. -/
theorem stamped_by_the_latest_fails :
    (∃ (_ : Host) (c : Context), (Context.new 1).replay rewrittenNotes = .ok c ∧
      ∃ t ∈ c.table.turns, t.location = .evicted (.single 1) ∧
        c.table.spans.reverse.find? (fun s => decide (Span.single t.id ≤ s)) =
          some ⟨(1, 2), by decide⟩) ∧
    ∃ (_ : Host) (c : Context), (Context.new 1).replay halfWithdrawn = .ok c ∧
      ∃ t ∈ c.table.turns, t.location ≠ .withdrawn ∧
        (c.table.frontier.countP fun i => decide (Span.single t.id ≤ i.span)) = 0 := by
  constructor
  · refine ⟨fileless, _, rfl, ?_⟩
    decide
  · refine ⟨fileless, _, rfl, ?_⟩
    decide

theorem table_partitions_history_rewritten : ∃ (_ : Host) (c : Context),
    (Context.new 1).replay rewrittenNotes = .ok c ∧ c.table.Partitioned :=
  ⟨fileless, _, rfl,
    (@table_partitions_history fileless 1 _ _ rewritten_in_range rewritten_honest rfl).1⟩

end Context

end Ral.Session
