import Mathlib.Data.Finset.Max
import Mathlib.Data.Finset.Option
import Ral.Path.Trace

/-! # Authority as a table of scoped evidence

A table is two sets of scopes and denotes a function from subjects to evidence:
positive where an allowance contains the subject, negative where an exclusion
matches it. Restriction is the meet of tables, extension their join. The meet is
computed by keeping the allowances whose own subject both tables support, which
is exact under the three obligations of `LawfulAllows`.
-/

namespace Ral.Authority
open Ral.Path

/-! ## Evidence -/

/-- Positive and negative support for one request. -/
structure Evidence where
  positive : Bool
  negative : Bool
deriving DecidableEq

namespace Evidence

def neither : Evidence := ⟨false, false⟩
def allow : Evidence := ⟨true, false⟩
def both : Evidence := ⟨true, true⟩

/-- Applied once, where a decision is enforced. -/
def permits (e : Evidence) : Bool := e.positive && !e.negative

def meet (a b : Evidence) : Evidence := ⟨a.positive && b.positive, a.negative || b.negative⟩

def join (a b : Evidence) : Evidence := ⟨a.positive || b.positive, a.negative || b.negative⟩

theorem meet_comm (a b : Evidence) : a.meet b = b.meet a := by
  simp [meet, Bool.and_comm, Bool.or_comm]

theorem meet_assoc (a b c : Evidence) : (a.meet b).meet c = a.meet (b.meet c) := by
  simp [meet, Bool.and_assoc, Bool.or_assoc]

@[simp] theorem meet_self (a : Evidence) : a.meet a = a := by simp [meet]

@[simp] theorem allow_meet (a : Evidence) : allow.meet a = a := by simp [meet, allow]

@[simp] theorem meet_allow (a : Evidence) : a.meet allow = a := by simp [meet, allow]

theorem join_comm (a b : Evidence) : a.join b = b.join a := by
  simp [join, Bool.or_comm]

theorem join_assoc (a b c : Evidence) : (a.join b).join c = a.join (b.join c) := by
  simp [join, Bool.or_assoc]

@[simp] theorem join_self (a : Evidence) : a.join a = a := by simp [join]

@[simp] theorem join_neither (a : Evidence) : a.join neither = a := by simp [join, neither]

end Evidence

/-! ## Scopes -/

/-- A positive scope over the subjects `S`, and the subject it is judged at. -/
class Allows (A : Type) (S : outParam Type) where
  contains : A → S → Bool
  own : A → S

/-- A negative scope over the subjects `S`. -/
class Denies (D : Type) (S : outParam Type) where
  matched : D → S → Option MatchedBy

/-- What makes the meet exact. -/
class LawfulAllows (A : Type) {S : outParam Type} [Allows A S] : Prop where
  contains_own : ∀ a : A, Allows.contains a (Allows.own a) = true
  nested : ∀ (a k : A) (s : S), Allows.contains a s = true → Allows.contains k s = true →
    Allows.contains a (Allows.own k) = true ∨ Allows.contains k (Allows.own a) = true
  own_detects : ∀ (a k : A) (s : S), Allows.contains a (Allows.own k) = true →
    Allows.contains k s = true → Allows.contains a s = true

/-! ## Tables -/

/-- Allowances and exclusions, each a set. -/
structure Table (A D : Type) where
  allows : Finset A
  denies : Finset D

/-- Why a table refuses a subject. -/
inductive Withheld (D : Type)
  | missingAllowance
  | excluded (scope : D) (matchedBy : MatchedBy)
deriving DecidableEq

namespace Table

variable {A D S : Type} [Allows A S] [Denies D S]

def empty : Table A D := ⟨∅, ∅⟩

def supports (t : Table A D) (s : S) : Bool := decide (∃ a ∈ t.allows, Allows.contains a s = true)

def excludes (t : Table A D) (s : S) : Bool :=
  decide (∃ d ∈ t.denies, (Denies.matched d s).isSome = true)

/-- Computed, never stored. -/
def evidence (t : Table A D) (s : S) : Evidence := ⟨t.supports s, t.excludes s⟩

def live (t : Table A D) : Finset A := t.allows.filter fun a => (t.evidence (Allows.own a)).permits

def witnesses (t : Table A D) (s : S) : Finset (MatchedBy ×ₗ D) :=
  t.denies.filterMap (fun d => (Denies.matched d s).map fun m => toLex (m, d)) (by
    intro a b w ha hb
    simp only [Option.mem_def, Option.map_eq_some_iff] at ha hb
    obtain ⟨_, _, rfl⟩ := ha
    obtain ⟨_, _, hw⟩ := hb
    exact (Prod.mk.inj (toLex.injective hw)).2.symm)

def withheld [LinearOrder D] (t : Table A D) (s : S) : Option (Withheld D) :=
  match (t.witnesses s).min with
  | some w => some (.excluded (ofLex w).2 (ofLex w).1)
  | none => if t.supports s then none else some .missingAllowance

variable [DecidableEq A] [DecidableEq D]

/-- Denies join; an allowance survives where both tables support its own subject. -/
def meet (t u : Table A D) : Table A D where
  allows := (t.allows ∪ u.allows).filter fun a =>
    t.supports (Allows.own a) && u.supports (Allows.own a)
  denies := t.denies ∪ u.denies

def join (t u : Table A D) : Table A D := ⟨t.allows ∪ u.allows, t.denies ∪ u.denies⟩

/-! ## What a table says of a subject -/

section Supports
variable {A D S : Type} [Allows A S] {t u : Table A D} {s : S}

theorem supports_iff : t.supports s = true ↔ ∃ a ∈ t.allows, Allows.contains a s = true := by
  simp [supports]

theorem supports_of_mem {a : A} (ha : a ∈ t.allows) (hs : Allows.contains a s = true) :
    t.supports s = true :=
  supports_iff.mpr ⟨a, ha, hs⟩

@[simp] theorem supports_empty : (empty : Table A D).supports s = false := by
  simp [empty, supports]

theorem supports_of_own [LawfulAllows A] {a : A} (ha : t.supports (Allows.own a) = true)
    (hs : Allows.contains a s = true) : t.supports s = true := by
  obtain ⟨b, hb, hown⟩ := supports_iff.mp ha
  exact supports_of_mem hb (LawfulAllows.own_detects b a s hown hs)

theorem supports_own_of_mem [LawfulAllows A] {a : A} (ha : a ∈ t.allows) : t.supports (Allows.own a) = true :=
  supports_of_mem ha (LawfulAllows.contains_own a)

variable [DecidableEq A] [DecidableEq D]

theorem supports_join : (t.join u).supports s = (t.supports s || u.supports s) := by
  rw [Bool.eq_iff_iff]
  simp only [Bool.or_eq_true, supports_iff, join, Finset.mem_union]
  constructor
  · rintro ⟨a, ha | ha, hs⟩
    · exact .inl ⟨a, ha, hs⟩
    · exact .inr ⟨a, ha, hs⟩
  · rintro (⟨a, ha, hs⟩ | ⟨a, ha, hs⟩)
    · exact ⟨a, .inl ha, hs⟩
    · exact ⟨a, .inr ha, hs⟩

theorem mem_allows_meet {a : A} : a ∈ (t.meet u).allows ↔
    (a ∈ t.allows ∨ a ∈ u.allows) ∧
      t.supports (Allows.own a) = true ∧ u.supports (Allows.own a) = true := by
  simp [meet]

variable [LawfulAllows A]

theorem supports_meet : (t.meet u).supports s = (t.supports s && u.supports s) := by
  rw [Bool.eq_iff_iff, Bool.and_eq_true]
  constructor
  · intro h
    obtain ⟨a, ha, hs⟩ := supports_iff.mp h
    obtain ⟨-, ht, hu⟩ := mem_allows_meet.mp ha
    exact ⟨supports_of_own ht hs, supports_of_own hu hs⟩
  · rintro ⟨ht, hu⟩
    obtain ⟨a, ha, hsa⟩ := supports_iff.mp ht
    obtain ⟨b, hb, hsb⟩ := supports_iff.mp hu
    rcases LawfulAllows.nested a b s hsa hsb with hab | hba
    · exact supports_of_mem
        (mem_allows_meet.mpr ⟨.inr hb, supports_of_mem ha hab, supports_own_of_mem hb⟩) hsb
    · exact supports_of_mem
        (mem_allows_meet.mpr ⟨.inl ha, supports_own_of_mem ha, supports_of_mem hb hba⟩) hsa

end Supports

section Excludes
variable {A D S : Type} [Denies D S] {t u : Table A D} {s : S}

theorem excludes_iff :
    t.excludes s = true ↔ ∃ d ∈ t.denies, (Denies.matched d s).isSome = true := by
  simp [excludes]

@[simp] theorem excludes_empty : (empty : Table A D).excludes s = false := by
  simp [empty, excludes]

theorem excludes_of_denies_eq_union [DecidableEq D] {v : Table A D}
    (hv : v.denies = t.denies ∪ u.denies) : v.excludes s = (t.excludes s || u.excludes s) := by
  rw [Bool.eq_iff_iff]
  simp only [Bool.or_eq_true, excludes_iff, hv, Finset.mem_union]
  constructor
  · rintro ⟨d, hd | hd, hs⟩
    · exact .inl ⟨d, hd, hs⟩
    · exact .inr ⟨d, hd, hs⟩
  · rintro (⟨d, hd, hs⟩ | ⟨d, hd, hs⟩)
    · exact ⟨d, .inl hd, hs⟩
    · exact ⟨d, .inr hd, hs⟩

theorem witnesses_nonempty : (t.witnesses s).Nonempty ↔ t.excludes s = true := by
  rw [excludes_iff]
  constructor
  · rintro ⟨w, hw⟩
    obtain ⟨d, hd, hm⟩ := Finset.mem_filterMap _ |>.mp hw
    exact ⟨d, hd, by cases h : Denies.matched d s <;> simp [h] at hm ⊢⟩
  · rintro ⟨d, hd, hm⟩
    obtain ⟨m, hm⟩ := Option.isSome_iff_exists.mp hm
    exact ⟨toLex (m, d), Finset.mem_filterMap _ |>.mpr ⟨d, hd, by simp [hm]⟩⟩

end Excludes

section Evidence
variable {A D S : Type} [Allows A S] [Denies D S] {t u : Table A D} {s : S}

theorem evidence_permits :
    (t.evidence s).permits = true ↔ t.supports s = true ∧ t.excludes s = false := by
  simp [evidence, Evidence.permits]

theorem withheld_eq_none [LinearOrder D] :
    t.withheld s = none ↔ (t.evidence s).permits = true := by
  rw [evidence_permits, ← Bool.not_eq_true, ← witnesses_nonempty (D := D), withheld]
  cases h : (t.witnesses s).min with
  | top =>
    have he : t.witnesses s = ∅ := Finset.min_eq_top.mp h
    cases hs : t.supports s <;> simp [he]
  | coe w =>
    have hn : (t.witnesses s).Nonempty := ⟨w, Finset.mem_of_min h⟩
    simp [hn]

theorem withheld_eq_missing [LinearOrder D] :
    t.withheld s = some .missingAllowance ↔ t.supports s = false ∧ t.excludes s = false := by
  rw [← Bool.not_eq_true (t.excludes s), ← witnesses_nonempty (D := D), withheld]
  cases h : (t.witnesses s).min with
  | top =>
    have he : t.witnesses s = ∅ := Finset.min_eq_top.mp h
    cases hs : t.supports s <;> simp [he]
  | coe w =>
    have hn : (t.witnesses s).Nonempty := ⟨w, Finset.mem_of_min h⟩
    simp [hn]

theorem excludes_of_withheld [LinearOrder D] {d : D} {m : MatchedBy}
    (h : t.withheld s = some (.excluded d m)) : t.excludes s = true := by
  by_contra hx
  rw [Bool.not_eq_true] at hx
  cases hs : t.supports s with
  | true => simp [withheld_eq_none.mpr (evidence_permits.mpr ⟨hs, hx⟩)] at h
  | false => simp [withheld_eq_missing.mpr ⟨hs, hx⟩] at h

variable [DecidableEq A] [DecidableEq D]

theorem evidence_join : (t.join u).evidence s = (t.evidence s).join (u.evidence s) := by
  simp [evidence, Evidence.join, supports_join, excludes_of_denies_eq_union (v := t.join u) rfl]

theorem evidence_meet [LawfulAllows A] :
    (t.meet u).evidence s = (t.evidence s).meet (u.evidence s) := by
  simp [evidence, Evidence.meet, supports_meet, excludes_of_denies_eq_union (v := t.meet u) rfl]

end Evidence

/-! ## The laws of a table -/

/-- The obligations of the allowances, and what they make of meet and join:
both act pointwise on evidence, so both are semilattices up to evidence, with
`top` the unit of the meet and the empty table of the join. -/
structure Laws (A D : Type) {S : Type} [Allows A S] [Denies D S] [DecidableEq A] [DecidableEq D]
    (top : Table A D) : Prop where
  obligations : LawfulAllows A
  meet_pointwise : ∀ (t u : Table A D) (s : S),
    (t.meet u).evidence s = (t.evidence s).meet (u.evidence s)
  join_pointwise : ∀ (t u : Table A D) (s : S),
    (t.join u).evidence s = (t.evidence s).join (u.evidence s)
  meet_comm : ∀ (t u : Table A D) (s : S), (t.meet u).evidence s = (u.meet t).evidence s
  meet_assoc : ∀ (t u v : Table A D) (s : S),
    ((t.meet u).meet v).evidence s = (t.meet (u.meet v)).evidence s
  meet_idem : ∀ (t : Table A D) (s : S), (t.meet t).evidence s = t.evidence s
  meet_top : ∀ (t : Table A D) (s : S),
    (t.meet top).evidence s = t.evidence s ∧ (top.meet t).evidence s = t.evidence s
  join_comm : ∀ (t u : Table A D) (s : S), (t.join u).evidence s = (u.join t).evidence s
  join_assoc : ∀ (t u v : Table A D) (s : S),
    ((t.join u).join v).evidence s = (t.join (u.join v)).evidence s
  join_idem : ∀ (t : Table A D) (s : S), (t.join t).evidence s = t.evidence s
  join_empty : ∀ (t : Table A D) (s : S), (t.join empty).evidence s = t.evidence s

theorem Laws.of_obligations {A D S : Type} [Allows A S] [Denies D S] [DecidableEq A]
    [DecidableEq D] [LawfulAllows A] {top : Table A D}
    (htop : ∀ s : S, top.evidence s = .allow) : Laws A D top where
  obligations := inferInstance
  meet_pointwise _ _ _ := evidence_meet
  join_pointwise _ _ _ := evidence_join
  meet_comm _ _ _ := by rw [evidence_meet, evidence_meet, Evidence.meet_comm]
  meet_assoc _ _ _ _ := by simp only [evidence_meet, Evidence.meet_assoc]
  meet_idem _ _ := by rw [evidence_meet, Evidence.meet_self]
  meet_top _ s := by
    constructor
    · rw [evidence_meet, htop s, Evidence.meet_allow]
    · rw [evidence_meet, htop s, Evidence.allow_meet]
  join_comm _ _ _ := by rw [evidence_join, evidence_join, Evidence.join_comm]
  join_assoc _ _ _ _ := by simp only [evidence_join, Evidence.join_assoc]
  join_idem _ _ := by rw [evidence_join, Evidence.join_self]
  join_empty t s := by
    have he : (empty : Table A D).evidence s = .neither := by simp [evidence, Evidence.neither]
    rw [evidence_join, he, Evidence.join_neither]

end Table

end Ral.Authority
