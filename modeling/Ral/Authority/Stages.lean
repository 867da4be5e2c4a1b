import Ral.Authority.Attenuation

/-! # Judging a read in two stages

The placed table has the exclusions of the plain one and supports all it does. What the plain
table permits or excludes the placed one does too, by the same witness.
-/

namespace Ral.Authority
open Ral.Path

namespace Table

section Support
variable {A D S : Type} [Allows A S] {t u : Table A D}

/-- The same exclusions, and support for all that `t` supports. -/
structure Extends (u t : Table A D) : Prop where
  denies : u.denies = t.denies
  supports : ∀ {s : S}, t.supports s = true → u.supports s = true

variable [DecidableEq A] [DecidableEq D] {t' u' : Table A D}

theorem Extends.meet [LawfulAllows A] (h : u.Extends t) (h' : u'.Extends t') :
    (u.meet u').Extends (t.meet t') := by
  constructor
  · show u.denies ∪ u'.denies = t.denies ∪ t'.denies
    rw [h.denies, h'.denies]
  · intro s hs
    rw [supports_meet, Bool.and_eq_true] at hs ⊢
    exact ⟨h.supports hs.1, h'.supports hs.2⟩

theorem Extends.join (h : u.Extends t) (v : Table A D) : (u.join v).Extends (t.join v) := by
  constructor
  · show u.denies ∪ v.denies = t.denies ∪ v.denies
    rw [h.denies]
  · intro s hs
    rw [supports_join, Bool.or_eq_true] at hs ⊢
    exact hs.imp_left h.supports

theorem extends_join_allows (t : Table A D) (allows : Finset A) : (t.join ⟨allows, ∅⟩).Extends t := by
  constructor
  · exact Finset.union_empty _
  · intro s hs
    rw [supports_join, hs, Bool.true_or]

end Support

section Verdict
variable {A D S : Type} [Allows A S] [Denies D S] {t u : Table A D}

theorem Extends.witnesses (h : u.Extends t) (s : S) : u.witnesses s = t.witnesses s := by
  unfold Table.witnesses
  congr 1
  exact h.denies

theorem Extends.withheld [LinearOrder D] (h : u.Extends t) {s : S}
    (hs : t.withheld s ≠ some .missingAllowance) : u.withheld s = t.withheld s := by
  unfold Table.withheld at hs ⊢
  rw [h.witnesses s]
  cases hmin : (t.witnesses s).min with
  | coe w => rfl
  | top =>
    cases hsupports : t.supports s with
    | true => simp [h.supports hsupports]
    | false => simp [hmin, hsupports] at hs

end Verdict

end Table

/-! ## The fs fold -/

variable [Host]

/-- Both tables stand, the placed one an extension of the plain one, or neither does. -/
inductive Paired : Option FsRules → Option FsRules → Prop
  | none : Paired none none
  | some {plain placed : FsRules} : placed.Extends plain → Paired (some plain) (some placed)

theorem Paired.meetOnto {plain placed : Option FsRules} (h : Paired plain placed) {t u : FsRules}
    (hu : u.Extends t) : Paired (meetOnto plain t) (meetOnto placed u) := by
  cases h with
  | none => exact .some hu
  | some h => exact .some (h.meet hu)

theorem foldLayer_paired {op : FsOp} {acc : FoldState} (h : Paired acc.plain acc.placed)
    (layer : GrantLayer) : Paired (foldLayer op acc layer).plain (foldLayer op acc layer).placed := by
  cases hfs : layer.fs with
  | none =>
    obtain ⟨hplain, hplaced⟩ := foldLayer_of_fs_none op acc hfs
    rwa [hplain, hplaced]
  | some fs =>
    simp only [foldLayer, hfs]
    exact h.meetOnto (Table.extends_join_allows _ _)

theorem foldAll_paired (op : FsOp) (layers : List GrantLayer) :
    Paired (foldAll op layers).plain (foldAll op layers).placed := by
  induction layers using List.reverseRecOn with
  | nil => exact .none
  | append_singleton layers layer ih =>
    rw [foldAll_append_singleton]
    exact foldLayer_paired ih layer

theorem withSystemReads_extends {op : FsOp} {t u : FsRules} (h : u.Extends t) (baseline : Baseline) :
    (withSystemReads op baseline u).Extends (withSystemReads op baseline t) := by
  cases op with
  | read => exact h.join _
  | write => exact h

theorem fold_extends {grants : GrantStack} {op : FsOp} {baseline : Baseline} {f : Folded}
    (h : fold grants op baseline = some f) : f.placed.Extends f.plain := by
  rw [fold_eq] at h
  obtain ⟨plain, hplain, h⟩ := Option.bind_eq_some_iff.mp h
  obtain ⟨placed, hplaced, rfl⟩ := Option.map_eq_some_iff.mp h
  have hpaired := foldAll_paired op grants.layers
  rw [hplain, hplaced] at hpaired
  cases hpaired with
  | some hextends => exact withSystemReads_extends hextends baseline

/-! ## The verdict -/

theorem withheld_of_extends {f : Folded} (h : f.placed.Extends f.plain) (s : Subject) :
    (ReadRegion.mk (some f)).withheld s = match f.placed.withheld s with
      | none => .ok ()
      | some why => .error why := by
  unfold ReadRegion.withheld
  cases hplain : f.plain.withheld s with
  | none => simp only [hplain, h.withheld (s := s) (by simp [hplain])]
  | some why =>
    cases why with
    | missingAllowance =>
      cases hplaced : f.placed.withheld s with
      | none => simp only [hplain, hplaced]
      | some why => simp only [hplain, hplaced]
    | excluded scope matchedBy =>
      simp only [hplain, h.withheld (s := s) (by simp [hplain])]

/-- The verdict in two stages is that of the running region, witness and all; both are silent
together. -/
theorem readRegion_withheld (grants : GrantStack) (baseline : Baseline) (s : Subject) :
    (grants.readRegion baseline).withheld s =
      match (runningRegion grants baseline).bind fun region => region.withheld s with
      | none => .ok ()
      | some why => .error why := by
  unfold GrantStack.readRegion runningRegion
  cases hf : fold grants .read baseline with
  | none => rfl
  | some f => exact withheld_of_extends (fold_extends hf) s

end Ral.Authority
