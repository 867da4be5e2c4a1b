import Ral.Session.Table

/-! # The ledger

What the turn table is for: which turns there are and where each is, and the spans of turns
that have been evicted. Only ids, spans and locations are kept; the table refines it.
-/

namespace Ral.Session

structure Ledger where
  turns : List (ℕ × Location)
  evictions : List (Span × Location)

namespace Ledger

def ids (l : Ledger) : List ℕ := l.turns.map Prod.fst

def spans (l : Ledger) : List Span := l.evictions.map Prod.fst

def gone (l : Ledger) (id : ℕ) : Bool := decide ((id, Location.withdrawn) ∈ l.turns)

def openTurn (l : Ledger) (id : ℕ) : Ledger := { l with turns := l.turns ++ [(id, .resident)] }

def depart (l : Ledger) (leaving : Span → Prop) [DecidablePred leaving]
    (under : Option Span) : Ledger where
  turns := l.turns.map fun x => if leaving (.single x.1) then (x.1, x.2.depart under) else x
  evictions := l.evictions.map fun e => if leaving e.1 then (e.1, e.2.depart under) else e

def withdraw (l : Ledger) (lo : ℕ) : Ledger := l.depart (fun span => lo ≤ span.fst) none

def evict (l : Ledger) (span : Span) : Ledger :=
  let left := l.depart (fun s => s ≤ span) (some span)
  { left with evictions := left.evictions ++ [(span, .resident)] }

@[simp] theorem depart_ids (l : Ledger) (leaving : Span → Prop) [DecidablePred leaving]
    (under : Option Span) : (l.depart leaving under).ids = l.ids := by
  simp only [ids, depart, List.map_map]
  apply List.map_congr_left
  intro x _
  simp only [Function.comp_apply]
  split <;> rfl

@[simp] theorem depart_spans (l : Ledger) (leaving : Span → Prop) [DecidablePred leaving]
    (under : Option Span) : (l.depart leaving under).spans = l.spans := by
  simp only [spans, depart, List.map_map]
  apply List.map_congr_left
  intro e _
  simp only [Function.comp_apply]
  split <;> rfl

@[simp] theorem evict_spans (l : Ledger) (span : Span) :
    (l.evict span).spans = l.spans ++ [span] := by
  have h : (l.evict span).spans = (l.depart (fun s => s ≤ span) (some span)).spans ++ [span] := by
    simp [evict, spans]
  rw [h, depart_spans]

@[simp] theorem evict_ids (l : Ledger) (span : Span) : (l.evict span).ids = l.ids :=
  depart_ids l (fun s => s ≤ span) (some span)

theorem mem_ids {l : Ledger} {id : ℕ} : id ∈ l.ids ↔ ∃ x ∈ l.turns, x.1 = id := List.mem_map

/-! ## Stamps -/

theorem heldBy_concat {x s : Span} {made : List Span} (h : Intervals.Laminar (made ++ [s])) :
    heldBy x (made ++ [s]) =
      if x ≤ s then (heldBy x made).depart (some s) else heldBy x made := by
  unfold heldBy holder
  rw [Intervals.least_concat Span.width_mono h]
  cases Intervals.least Span.width x made <;> by_cases hx : x ≤ s <;>
    simp [hx, Location.depart, Location.isResident]

theorem heldBy_eq_resident {x : Span} {made : List Span} :
    heldBy x made = .resident ↔ ∀ e ∈ made, ¬ x ≤ e := by
  have hnone := @Intervals.least_eq_none ℕ _ ℕ _ Span.width x made
  unfold heldBy holder
  rw [← hnone]
  cases Intervals.least Span.width x made <;> simp

theorem heldBy_eq_evicted {x s : Span} {made : List Span} (h : Intervals.Laminar made) :
    heldBy x made = .evicted s ↔ made.find? (fun e => decide (x ≤ e)) = some s := by
  unfold heldBy holder
  rw [Intervals.least_eq_find Span.width_mono h]
  cases made.find? (fun e => decide (x ≤ e)) <;> simp

def stamp (gone : ℕ → Bool) (s : Span) (later : List Span) : Location :=
  if gone s.fst then .withdrawn else heldBy s later

/-- Every eviction stamped: withdrawn with the turn it opens at, else under its holder. -/
def stampAll (gone : ℕ → Bool) : List Span → List (Span × Location)
  | [] => []
  | s :: later => (s, stamp gone s later) :: stampAll gone later

theorem stampAll_spans (gone : ℕ → Bool) (made : List Span) :
    (stampAll gone made).map Prod.fst = made := by
  induction made with
  | nil => rfl
  | cons s later ih => simp [stampAll, ih]

theorem mem_stampAll (gone : ℕ → Bool) (xs : List Span) (s : Span) (later : List Span) :
    (s, stamp gone s later) ∈ stampAll gone (xs ++ s :: later) := by
  induction xs with
  | nil => exact List.mem_cons_self
  | cons x xs ih => exact List.mem_cons_of_mem _ ih

theorem stampAll_concat {gone : ℕ → Bool} {s : Span} {made : List Span}
    (h : Intervals.Laminar (made ++ [s])) (hs : gone s.fst = false) :
    stampAll gone (made ++ [s]) =
      ((stampAll gone made).map fun e => if e.1 ≤ s then (e.1, e.2.depart (some s)) else e) ++
        [(s, .resident)] := by
  induction made with
  | nil => simp [stampAll, stamp, hs, heldBy, holder, Intervals.least]
  | cons m made ih =>
    have htail : Intervals.Laminar (made ++ [s]) := (List.pairwise_cons.mp h).2
    have hm : stamp gone m (made ++ [s]) =
        if m ≤ s then (stamp gone m made).depart (some s) else stamp gone m made := by
      unfold stamp
      rw [heldBy_concat htail]
      cases gone m.fst with
      | true => simp [Location.depart, Location.isResident]
      | false => rfl
    simp only [List.cons_append, stampAll, List.map_cons, ih htail, hm]
    by_cases hms : m ≤ s <;> simp [hms]

theorem stampAll_withdraw {gone gone' : ℕ → Bool} {lo : ℕ} {made : List Span}
    (h : ∀ s ∈ made, gone' s.fst = (gone s.fst || decide (lo ≤ s.fst))) :
    stampAll gone' made =
      (stampAll gone made).map fun e => if lo ≤ e.1.fst then (e.1, .withdrawn) else e := by
  induction made with
  | nil => rfl
  | cons m made ih =>
    have hm := h m List.mem_cons_self
    simp only [stampAll, List.map_cons, ih fun s hs => h s (List.mem_cons_of_mem _ hs)]
    congr 1
    unfold stamp
    rw [hm]
    by_cases hlo : lo ≤ m.fst <;> simp [hlo]

/-! ## Soundness -/

/-- Turns in id order, evictions laminar over runs of recorded turns, and every stamp the one
its evictions give. -/
structure Sound (l : Ledger) : Prop where
  ordered : l.ids.Pairwise (· < ·)
  bounded : ∀ id ∈ l.ids, id ≤ u64Max
  laminar : Intervals.Laminar l.spans
  carried : ∀ s ∈ l.spans, s.fst ∈ l.ids ∧ s.snd ∈ l.ids
  placed : ∀ x ∈ l.turns, x.2 ≠ .withdrawn → x.2 = heldBy (.single x.1) l.spans
  stamped : l.evictions = stampAll l.gone l.spans

/-- A withdrawn eviction covers withdrawn turns only. -/
def Honest (l : Ledger) : Prop :=
  ∀ s ∈ l.spans, l.gone s.fst → ∀ x ∈ l.turns, .single x.1 ≤ s → x.2 = .withdrawn

theorem Sound.empty : Sound ⟨[], []⟩ := by
  constructor <;> simp [ids, spans, stampAll, Intervals.Laminar]

theorem Honest.empty : Honest ⟨[], []⟩ := by
  intro s hs
  simp [spans] at hs

variable {l : Ledger}

theorem Sound.open (h : l.Sound) {id : ℕ} (fresh : ∀ i ∈ l.ids, i < id) (room : id ≤ u64Max) :
    (l.openTurn id).Sound := by
  have hids : (l.openTurn id).ids = l.ids ++ [id] := by simp [ids, openTurn]
  have hgone : (l.openTurn id).gone = l.gone := by
    funext i
    simp [gone, openTurn]
  constructor
  · rw [hids, List.pairwise_append]
    exact ⟨h.ordered, by simp, by simpa using fresh⟩
  · rw [hids]
    intro i hi
    rcases List.mem_append.mp hi with hi | hi
    · exact h.bounded i hi
    · rw [List.mem_singleton.mp hi]
      exact room
  · exact h.laminar
  · rw [hids]
    intro s hs
    have := h.carried s hs
    exact ⟨List.mem_append_left _ this.1, List.mem_append_left _ this.2⟩
  · intro x hx hw
    rcases List.mem_append.mp hx with hx | hx
    · exact h.placed x hx hw
    · rw [List.mem_singleton.mp hx]
      symm
      apply heldBy_eq_resident.mpr
      intro s hs hle
      have hsnd := fresh s.snd (h.carried s hs).2
      have : id ≤ s.snd := hle.2
      omega
  · rw [hgone]
    exact h.stamped

theorem Honest.open (h : l.Honest) (sound : l.Sound) {id : ℕ} (fresh : ∀ i ∈ l.ids, i < id) :
    (l.openTurn id).Honest := by
  intro s hs hg x hx hle
  have hg' : l.gone s.fst := by simpa [gone, openTurn] using hg
  rcases List.mem_append.mp hx with hx | hx
  · exact h s hs hg' x hx hle
  · rw [List.mem_singleton.mp hx] at hle
    have hsnd := fresh s.snd (sound.carried s hs).2
    have : id ≤ s.snd := hle.2
    omega

/-- An eviction of a run both ends of which are recorded, cutting no other. -/
structure Evictable (l : Ledger) (span : Span) : Prop where
  opens : ∃ loc, (span.fst, loc) ∈ l.turns ∧ loc ≠ .withdrawn
  closes : ∃ loc, (span.snd, loc) ∈ l.turns ∧ loc ≠ .withdrawn
  uncut : ∀ s ∈ l.spans, s ≤ span ∨ Intervals.Apart s span

theorem Sound.functional (h : l.Sound) {id : ℕ} {a b : Location} (ha : (id, a) ∈ l.turns)
    (hb : (id, b) ∈ l.turns) : a = b := by
  have hnodup : l.ids.Nodup := h.ordered.imp fun hlt => Nat.ne_of_lt hlt
  have := List.inj_on_of_nodup_map hnodup ha hb rfl
  exact congrArg Prod.snd this

theorem Sound.not_gone (h : l.Sound) {id : ℕ} {loc : Location} (hmem : (id, loc) ∈ l.turns)
    (hloc : loc ≠ .withdrawn) : l.gone id = false := by
  unfold gone
  rw [decide_eq_false_iff_not]
  intro hw
  exact hloc (h.functional hmem hw)

theorem depart_some_withdrawn {span : Span} {loc : Location} :
    loc.depart (some span) = .withdrawn ↔ loc = .withdrawn := by
  cases loc <;> simp [Location.depart, Location.isResident]

theorem evict_gone (l : Ledger) (span : Span) : (l.evict span).gone = l.gone := by
  funext id
  unfold gone
  congr 1
  simp only [evict, depart, List.mem_map, eq_iff_iff]
  constructor
  · intro h
    obtain ⟨x, hx, heq⟩ := h
    split at heq
    · obtain ⟨hid, hloc⟩ := Prod.mk.inj heq
      rw [← hid, ← depart_some_withdrawn.mp hloc]
      exact hx
    · exact heq ▸ hx
  · intro h
    refine ⟨_, h, ?_⟩
    split <;> rfl

theorem Sound.evict (h : l.Sound) {span : Span} (ok : l.Evictable span) : (l.evict span).Sound := by
  have hlam : Intervals.Laminar (l.spans ++ [span]) :=
    Intervals.laminar_concat.mpr ⟨h.laminar, ok.uncut⟩
  obtain ⟨lo, hlo, hlow⟩ := ok.opens
  obtain ⟨hi, hhi, -⟩ := ok.closes
  constructor
  · rw [evict_ids]
    exact h.ordered
  · rw [evict_ids]
    exact h.bounded
  · rw [evict_spans]
    exact hlam
  · rw [evict_ids, evict_spans]
    intro s hs
    rcases List.mem_append.mp hs with hs | hs
    · exact h.carried s hs
    · rw [List.mem_singleton.mp hs]
      exact ⟨mem_ids.mpr ⟨_, hlo, rfl⟩, mem_ids.mpr ⟨_, hhi, rfl⟩⟩
  · rw [evict_spans]
    intro x hx hw
    rw [heldBy_concat hlam]
    obtain ⟨y, hy, rfl⟩ := List.mem_map.mp hx
    by_cases hle : Span.single y.1 ≤ span
    · simp only [hle, if_true] at hw ⊢
      rw [h.placed y hy fun hyw => hw (depart_some_withdrawn.mpr hyw)]
    · simp only [hle, if_false] at hw ⊢
      exact h.placed y hy hw
  · rw [evict_gone, evict_spans, stampAll_concat hlam (h.not_gone hlo hlow), ← h.stamped]
    rfl

theorem Honest.evict (h : l.Honest) (sound : l.Sound) {span : Span} (ok : l.Evictable span) :
    (l.evict span).Honest := by
  intro s hs hg x hx hle
  rw [evict_gone] at hg
  rw [evict_spans] at hs
  obtain ⟨y, hy, rfl⟩ := List.mem_map.mp hx
  have hid : (if Span.single y.1 ≤ span then (y.1, y.2.depart (some span)) else y).1 = y.1 := by
    split <;> rfl
  rw [hid] at hle
  rcases List.mem_append.mp hs with hs | hs
  · have hy2 := h s hs hg y hy hle
    split
    · exact depart_some_withdrawn.mpr hy2
    · exact hy2
  · obtain ⟨lo, hlo, hlow⟩ := ok.opens
    rw [List.mem_singleton.mp hs, sound.not_gone hlo hlow] at hg
    cases hg

theorem withdraw_gone (l : Ledger) (lo id : ℕ) (hid : id ∈ l.ids) :
    (l.withdraw lo).gone id = (l.gone id || decide (lo ≤ id)) := by
  have hmem : (id, Location.withdrawn) ∈ (l.withdraw lo).turns ↔
      (id, Location.withdrawn) ∈ l.turns ∨ lo ≤ id := by
    simp only [withdraw, depart, List.mem_map]
    constructor
    · intro h
      obtain ⟨x, hx, heq⟩ := h
      split at heq
      · next hlo =>
        right
        rw [← (Prod.mk.inj heq).1]
        exact hlo
      · left
        exact heq ▸ hx
    · intro h
      rcases h with h | h
      · refine ⟨_, h, ?_⟩
        split <;> rfl
      · obtain ⟨x, hx, rfl⟩ := mem_ids.mp hid
        refine ⟨x, hx, ?_⟩
        rw [if_pos (show lo ≤ (Span.single x.1).fst from h)]
        rfl
  unfold gone
  rw [decide_eq_decide.mpr hmem, Bool.decide_or]

theorem Sound.withdraw (h : l.Sound) (lo : ℕ) : (l.withdraw lo).Sound := by
  have hids : (l.withdraw lo).ids = l.ids := depart_ids _ _ _
  have hspans : (l.withdraw lo).spans = l.spans := depart_spans _ _ _
  constructor
  · rw [hids]
    exact h.ordered
  · rw [hids]
    exact h.bounded
  · rw [hspans]
    exact h.laminar
  · rw [hids, hspans]
    exact h.carried
  · rw [hspans]
    intro x hx hw
    obtain ⟨y, hy, rfl⟩ := List.mem_map.mp hx
    by_cases hle : lo ≤ y.1
    · simp [hle, Location.depart] at hw
    · simp only [Span.single_fst, hle, if_false] at hw ⊢
      exact h.placed y hy hw
  · have hstamp := @stampAll_withdraw l.gone (l.withdraw lo).gone lo l.spans fun s hs =>
      withdraw_gone l lo s.fst (h.carried s hs).1
    rw [hspans, hstamp, ← h.stamped]
    rfl

theorem Honest.withdraw (h : l.Honest) (sound : l.Sound) (lo : ℕ) : (l.withdraw lo).Honest := by
  have hspans : (l.withdraw lo).spans = l.spans := depart_spans _ _ _
  intro s hs hg x hx hle
  rw [hspans] at hs
  rw [withdraw_gone l lo s.fst (sound.carried s hs).1] at hg
  obtain ⟨y, hy, rfl⟩ := List.mem_map.mp hx
  by_cases hlo : lo ≤ y.1
  · simp [hlo, Location.depart]
  · simp only [Span.single_fst, hlo, if_false] at hle ⊢
    have hfst : s.fst ≤ y.1 := hle.1
    apply h s hs _ y hy hle
    have : ¬ lo ≤ s.fst := by omega
    simpa [this] using hg

end Ledger

end Ral.Session
