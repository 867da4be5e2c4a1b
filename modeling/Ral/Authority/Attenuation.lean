import Ral.Authority.Stack

/-! # Capabilities only shrink

One order carries the whole argument: a table is below another where it supports
no more and excludes no less at every subject. The meet is below both operands,
a fold that takes one more layer is below the fold before it, and each judgment
is monotone in the tables it reads.
-/

namespace Ral.Authority
open Ral.Path

/-! ## The order of tables -/

namespace Table

section Order
variable {A D S : Type} [Allows A S] [Denies D S]

/-- `t` supports no more than `u` and excludes no less, at every subject. -/
def Below (t u : Table A D) : Prop :=
  ∀ s : S, (t.supports s = true → u.supports s = true) ∧
    (u.excludes s = true → t.excludes s = true)

theorem Below.refl (t : Table A D) : t.Below t := fun _ => ⟨id, id⟩

theorem Below.permits {t u : Table A D} (h : t.Below u) {s : S}
    (ht : (t.evidence s).permits = true) : (u.evidence s).permits = true := by
  rw [evidence_permits] at *
  refine ⟨(h s).1 ht.1, ?_⟩
  rw [← Bool.not_eq_true]
  intro hu
  simp [(h s).2 hu] at ht

theorem Below.withheld_eq_none [LinearOrder D] {t u : Table A D} (h : t.Below u) {s : S}
    (ht : t.withheld s = none) : u.withheld s = none :=
  Table.withheld_eq_none.mpr (h.permits (Table.withheld_eq_none.mp ht))

/-- An absent table restricts nothing, so it is above every other. -/
def BelowOpt (t u : Option (Table A D)) : Prop := ∀ u' ∈ u, ∃ t' ∈ t, t'.Below u'

theorem BelowOpt.refl (t : Option (Table A D)) : BelowOpt t t :=
  fun u hu => ⟨u, hu, .refl u⟩

theorem BelowOpt.withheld_eq_none [LinearOrder D] {t u : Option (Table A D)} (h : BelowOpt t u)
    {s : S} (ht : (t.bind fun r => r.withheld s) = none) :
    (u.bind fun r => r.withheld s) = none := by
  cases u with
  | none => rfl
  | some u =>
    obtain ⟨t', ht', hb⟩ := h u rfl
    rw [Option.mem_def.mp ht'] at ht
    exact hb.withheld_eq_none ht

variable [DecidableEq A] [DecidableEq D]

theorem excludes_meet (t u : Table A D) (s : S) :
    (t.meet u).excludes s = (t.excludes s || u.excludes s) :=
  excludes_of_denies_eq_union rfl

omit [Allows A S] in
theorem excludes_join (t u : Table A D) (s : S) :
    (t.join u).excludes s = (t.excludes s || u.excludes s) :=
  excludes_of_denies_eq_union rfl

theorem meet_below_left [LawfulAllows A] (t u : Table A D) : (t.meet u).Below t := by
  intro s
  rw [supports_meet, excludes_meet]
  simp only [Bool.and_eq_true, Bool.or_eq_true]
  exact ⟨And.left, .inl⟩

theorem Below.join_right {t u : Table A D} (h : t.Below u) (v : Table A D) :
    (t.join v).Below (u.join v) := by
  intro s
  rw [supports_join, supports_join, excludes_join, excludes_join]
  simp only [Bool.or_eq_true]
  exact ⟨Or.imp_left (h s).1, Or.imp_left (h s).2⟩

theorem meetOnto_below [LawfulAllows A] (acc : Option (Table A D)) (next : Table A D) :
    BelowOpt (meetOnto acc next) acc := by
  rintro held rfl
  exact ⟨held.meet next, rfl, meet_below_left held next⟩

end Order

end Table

/-! ## The last opinion of a list -/

theorem rposition_append_singleton {α : Type} (p : α → Bool) (l : List α) (x : α) :
    rposition p (l ++ [x]) = if p x then some l.length else rposition p l := by
  unfold rposition
  cases hx : p x with
  | true => simp [List.findIdx?_cons, hx]
  | false =>
    simp [List.findIdx?_cons, hx, Function.comp_def, Nat.sub_sub, Nat.add_comm]

theorem rposition_lt {α : Type} {p : α → Bool} {l : List α} {i : ℕ}
    (h : rposition p l = some i) : i < l.length := by
  obtain ⟨j, hj, rfl⟩ := Option.map_eq_some_iff.mp h
  have hlt := (List.findIdx?_eq_some_iff_getElem.mp hj).1
  simp only [List.length_reverse] at hlt
  omega

/-! ## The exec meet -/

section Fold
variable [Host]

theorem rules_push (grants : GrantStack) (layer : GrantLayer) :
    rules (grants.push layer) =
      match layer.exec with
      | some exec => meetOnto (rules grants) exec
      | none => rules grants := by
  cases he : layer.exec with
  | none => simp [rules, GrantStack.push, GrantStack.exec, he]
  | some exec =>
    cases hg : grants.exec with
    | nil =>
      simp only [GrantStack.exec] at hg
      simp [rules, GrantStack.push, GrantStack.exec, he, hg, meetOnto]
    | cons first rest =>
      simp only [GrantStack.exec] at hg
      simp [rules, GrantStack.push, GrantStack.exec, he, hg, meetOnto]

theorem rules_push_below (grants : GrantStack) (layer : GrantLayer) :
    Table.BelowOpt (rules (grants.push layer)) (rules grants) := by
  rw [rules_push]
  cases layer.exec with
  | none => exact .refl _
  | some exec => exact Table.meetOnto_below _ _

/-! ## The fs fold -/

/-- The accumulator after every layer, those past the last opinion included. -/
def foldAll (op : FsOp) (layers : List GrantLayer) : FoldState :=
  layers.foldl (foldLayer op) .start

@[simp] theorem foldAll_append_singleton (op : FsOp) (layers : List GrantLayer)
    (layer : GrantLayer) : foldAll op (layers ++ [layer]) = foldLayer op (foldAll op layers) layer := by
  simp [foldAll]

theorem foldLayer_of_fs_none (op : FsOp) (acc : FoldState) {layer : GrantLayer}
    (h : layer.fs = none) : (foldLayer op acc layer).plain = acc.plain ∧
      (foldLayer op acc layer).placed = acc.placed := by
  simp [foldLayer, h]

/-- Stopping at the last opinion folds the same two tables as going on. -/
theorem foldAll_take_rposition (op : FsOp) (layers : List GrantLayer) :
    match rposition (fun l => l.fs.isSome) layers with
    | none => (foldAll op layers).plain = none ∧ (foldAll op layers).placed = none
    | some last =>
      (foldAll op (layers.take (last + 1))).plain = (foldAll op layers).plain ∧
        (foldAll op (layers.take (last + 1))).placed = (foldAll op layers).placed := by
  induction layers using List.reverseRecOn with
  | nil => exact ⟨rfl, rfl⟩
  | append_singleton layers layer ih =>
    rw [rposition_append_singleton, foldAll_append_singleton]
    cases hfs : layer.fs with
    | some fs =>
      simp [List.take_of_length_le]
    | none =>
      obtain ⟨hplain, hplaced⟩ := foldLayer_of_fs_none op (foldAll op layers) hfs
      simp only [Option.isSome_none, Bool.false_eq_true, if_false, hplain, hplaced]
      cases hr : rposition (fun l => l.fs.isSome) layers with
      | none => simpa [hr] using ih
      | some last =>
        have hle : last + 1 ≤ layers.length := rposition_lt hr
        simpa [hr, List.take_append_of_le_length hle] using ih

theorem fold_eq (grants : GrantStack) (op : FsOp) (baseline : Baseline) :
    fold grants op baseline = (foldAll op grants.layers).plain.bind fun plain =>
      (foldAll op grants.layers).placed.map fun placed =>
        ⟨withSystemReads op baseline plain, withSystemReads op baseline placed⟩ := by
  have h := foldAll_take_rposition op grants.layers
  unfold fold
  cases hr : rposition (fun l => l.fs.isSome) grants.layers with
  | none =>
    simp only [hr] at h
    simp [h.1]
  | some last =>
    simp only [hr] at h
    rw [← h.1, ← h.2]
    simp only [foldAll, Option.bind_eq_bind, Option.bind_some]
    congr 1
    funext plain
    cases (List.foldl (foldLayer op) FoldState.start
      (List.take (last + 1) grants.layers)).placed <;> rfl

theorem foldLayer_below (op : FsOp) (acc : FoldState) (layer : GrantLayer) :
    Table.BelowOpt (foldLayer op acc layer).plain acc.plain ∧
      Table.BelowOpt (foldLayer op acc layer).placed acc.placed := by
  cases hfs : layer.fs with
  | none =>
    obtain ⟨hplain, hplaced⟩ := foldLayer_of_fs_none op acc hfs
    rw [hplain, hplaced]
    exact ⟨.refl _, .refl _⟩
  | some fs =>
    simp only [foldLayer, hfs]
    exact ⟨Table.meetOnto_below _ _, Table.meetOnto_below _ _⟩

theorem withSystemReads_below {op : FsOp} {baseline : Baseline} {t u : FsRules} (h : t.Below u) :
    (withSystemReads op baseline t).Below (withSystemReads op baseline u) := by
  cases op with
  | read => exact h.join_right _
  | write => exact h

def Folded.Below (f g : Folded) : Prop := f.plain.Below g.plain ∧ f.placed.Below g.placed

theorem fold_push_below (grants : GrantStack) (layer : GrantLayer) (op : FsOp)
    (baseline : Baseline) : ∀ g ∈ fold grants op baseline,
      ∃ f ∈ fold (grants.push layer) op baseline, f.Below g := by
  intro g hg
  rw [fold_eq] at hg
  obtain ⟨plain, hplain, hg⟩ := Option.bind_eq_some_iff.mp hg
  obtain ⟨placed, hplaced, rfl⟩ := Option.map_eq_some_iff.mp hg
  obtain ⟨hbelow, hbelow'⟩ := foldLayer_below op (foldAll op grants.layers) layer
  obtain ⟨plain', hp, hpb⟩ := hbelow plain hplain
  obtain ⟨placed', hq, hqb⟩ := hbelow' placed hplaced
  refine ⟨⟨withSystemReads op baseline plain', withSystemReads op baseline placed'⟩, ?_,
    withSystemReads_below hpb, withSystemReads_below hqb⟩
  rw [fold_eq, GrantStack.push, foldAll_append_singleton, Option.mem_def.mp hp,
    Option.mem_def.mp hq]
  rfl

/-! ## The judgments -/

theorem ReadRegion.withheld_ok_iff {f : Folded} {s : Subject} :
    (ReadRegion.mk (some f)).withheld s = .ok () ↔
      f.plain.excludes s = false ∧
        (f.plain.supports s = true ∨ (f.placed.evidence s).permits = true) := by
  unfold ReadRegion.withheld
  cases hp : f.plain.withheld s with
  | none =>
    obtain ⟨hs, he⟩ := Table.evidence_permits.mp (Table.withheld_eq_none.mp hp)
    simp [hp, hs, he]
  | some why =>
    cases why with
    | missingAllowance =>
      obtain ⟨hs, he⟩ := Table.withheld_eq_missing.mp hp
      rw [← Table.withheld_eq_none]
      cases hq : f.placed.withheld s <;> simp [hp, hq, hs, he]
    | excluded scope m =>
      simp [hp, Table.excludes_of_withheld hp]

theorem ReadRegion.withheld_mono {f g : Folded} (h : f.Below g) {s : Subject}
    (hf : (ReadRegion.mk (some f)).withheld s = .ok ()) :
    (ReadRegion.mk (some g)).withheld s = .ok () := by
  rw [ReadRegion.withheld_ok_iff] at *
  obtain ⟨hx, hs⟩ := hf
  refine ⟨?_, hs.imp (h.1 s).1 h.2.permits⟩
  rw [← Bool.not_eq_true] at hx ⊢
  exact fun hg => hx ((h.1 s).2 hg)

theorem readRegion_push {grants : GrantStack} {layer : GrantLayer} {baseline : Baseline}
    {s : Subject} (h : ((grants.push layer).readRegion baseline).withheld s = .ok ()) :
    (grants.readRegion baseline).withheld s = .ok () := by
  cases hg : fold grants .read baseline with
  | none => simp [GrantStack.readRegion, ReadRegion.withheld, hg]
  | some g =>
    obtain ⟨f, hf, hfg⟩ := fold_push_below grants layer .read baseline g hg
    simp only [GrantStack.readRegion, hg]
    simp only [GrantStack.readRegion, Option.mem_def.mp hf] at h
    exact ReadRegion.withheld_mono hfg h

theorem region_push_below (grants : GrantStack) (layer : GrantLayer) (op : FsOp)
    (baseline : Baseline) :
    Table.BelowOpt (region (grants.push layer) op baseline) (region grants op baseline) := by
  intro r hr
  obtain ⟨g, hg, rfl⟩ := Option.map_eq_some_iff.mp hr
  obtain ⟨f, hf, hfg⟩ := fold_push_below grants layer op baseline g hg
  exact ⟨f.plain, Option.map_eq_some_iff.mpr ⟨f, hf, rfl⟩, hfg.1⟩

theorem write_push {grants : GrantStack} {layer : GrantLayer} {baseline : Baseline}
    {trace : Trace} (h : (grants.push layer).write baseline trace = .ok ()) :
    grants.write baseline trace = .ok () := by
  unfold GrantStack.write at *
  have hb := (region_push_below grants layer .write baseline).withheld_eq_none (s := .access trace)
  cases hw : (region (grants.push layer) .write baseline).bind fun r =>
      r.withheld (.access trace) with
  | none => rw [hb hw]
  | some why =>
    rw [hw] at h
    cases h

theorem readNotExcluded_ok_iff {grants : GrantStack} {baseline : Baseline} {trace : Trace} :
    grants.readNotExcluded baseline trace = .ok () ↔
      ∀ r ∈ region grants .read baseline, r.excludes (.access trace) = false := by
  unfold GrantStack.readNotExcluded
  cases hr : region grants .read baseline with
  | none => simp
  | some r =>
    simp only [Option.bind_some, Option.mem_def, Option.some.injEq, forall_eq']
    cases hw : r.withheld (.access trace) with
    | none => simp [(Table.evidence_permits.mp (Table.withheld_eq_none.mp hw)).2]
    | some why =>
      cases why with
      | missingAllowance => simp [(Table.withheld_eq_missing.mp hw).2]
      | excluded scope m => simp [Table.excludes_of_withheld hw]

theorem readNotExcluded_push {grants : GrantStack} {layer : GrantLayer} {baseline : Baseline}
    {trace : Trace} (h : (grants.push layer).readNotExcluded baseline trace = .ok ()) :
    grants.readNotExcluded baseline trace = .ok () := by
  rw [readNotExcluded_ok_iff] at *
  intro r hr
  obtain ⟨r', hr', hb⟩ := region_push_below grants layer .read baseline r hr
  have hx := h r' hr'
  rw [← Bool.not_eq_true] at hx ⊢
  exact fun hg => hx ((hb _).2 hg)

theorem runWithheld_push {grants : GrantStack} {layer : GrantLayer} {s : ExecSubject}
    (h : runWithheld (rules (grants.push layer)) s = .ok ()) :
    runWithheld (rules grants) s = .ok () := by
  unfold runWithheld at *
  have hb := (rules_push_below grants layer).withheld_eq_none (s := s)
  cases hw : (rules (grants.push layer)).bind fun r => r.withheld s with
  | none => rw [hb hw]
  | some why =>
    rw [hw] at h
    cases h

end Fold

/-! ## Attenuation -/

theorem isOk_iff {ε : Type} {e : Except ε Unit} : e.isOk = true ↔ e = .ok () := by
  cases e <;> simp [Except.isOk, Except.toBool]

theorem isOk_mapError {ε ε' : Type} (e : Except ε Unit) (f : ε → ε') :
    (e.mapError f).isOk = e.isOk := by
  cases e <;> rfl

theorem head?_isNone_of_append {α : Type} {l m : List α} (h : (l ++ m).head?.isNone = true) :
    l.head?.isNone = true := by
  cases l <;> simp_all

section Attenuation
variable [Host]

theorem refusalFs_push {grants : GrantStack} {layer : GrantLayer} {baseline : Baseline}
    {op : FsOp} {trace : Trace}
    (h : ((grants.push layer).refusalFs baseline op trace).isOk = true) :
    (grants.refusalFs baseline op trace).isOk = true := by
  cases op with
  | read =>
    simp only [GrantStack.refusalFs, isOk_mapError, isOk_iff] at h ⊢
    exact readRegion_push h
  | write =>
    simp only [GrantStack.refusalFs] at h ⊢
    cases hp : trace.leafId.bind baseline.protectedAs with
    | some name => simp [hp, Except.isOk, Except.toBool] at h
    | none =>
      simp only [hp, isOk_mapError, isOk_iff] at h ⊢
      exact write_push h

theorem toolRead_push {grants : GrantStack} {layer : GrantLayer} {baseline : Baseline}
    (h : (grants.push layer).toolRead baseline = .ok ()) : grants.toolRead baseline = .ok () := by
  unfold GrantStack.toolRead at *
  cases hi : baseline.image with
  | none => rfl
  | some image =>
    simp only [hi] at h
    exact readNotExcluded_push h

def programRead (grants : GrantStack) (baseline : Baseline) :
    Program → Except (Withheld FsDeny) Unit
  | .tool _ => grants.toolRead baseline
  | .file _ located => (grants.readRegion baseline).withheld (.access located)

theorem admit_isOk_iff {grants : GrantStack} {baseline : Baseline} {program : Program} :
    (grants.admitProgram baseline program).isOk = true ↔
      runWithheld (rules grants) program.subject = .ok () ∧
        programRead grants baseline program = .ok () := by
  cases hr : runWithheld (rules grants) program.subject with
  | error why => simp [GrantStack.admitProgram, hr, Except.mapError, Except.isOk, Except.toBool, bind,
      Except.bind]
  | ok u =>
    cases program with
    | tool name =>
      cases ht : grants.toolRead baseline <;>
        simp [GrantStack.admitProgram, hr, ht, programRead, Except.mapError, Except.isOk,
          Except.toBool, bind, Except.bind, pure, Except.pure]
    | file arg0 located =>
      cases ht : (grants.readRegion baseline).withheld (.access located) <;>
        simp [GrantStack.admitProgram, hr, ht, programRead, Except.mapError, Except.isOk,
          Except.toBool, bind, Except.bind, pure, Except.pure]

theorem admitName_isOk_iff {grants : GrantStack} {baseline : Baseline} {trace : Trace} :
    (grants.admitName baseline trace).isOk = true ↔
      runWithheld (rules grants) (.program (.access trace)) = .ok () ∧
        grants.read baseline trace = .ok () := by
  cases hr : runWithheld (rules grants) (.program (.access trace)) <;>
    cases ht : grants.read baseline trace <;>
      simp [GrantStack.admitName, hr, ht, Except.mapError, Except.isOk, Except.toBool, bind,
        Except.bind]

theorem programRead_push {grants : GrantStack} {layer : GrantLayer} {baseline : Baseline}
    {program : Program} (h : programRead (grants.push layer) baseline program = .ok ()) :
    programRead grants baseline program = .ok () := by
  cases program with
  | tool name => exact toolRead_push h
  | file arg0 located => exact readRegion_push h

/-- One more layer grants nothing new. -/
theorem permitted_push {grants : GrantStack} {layer : GrantLayer} {baseline : Baseline}
    {access : Access} (h : (grants.push layer).permitted baseline access = true) :
    grants.permitted baseline access = true := by
  cases access with
  | fs op trace => exact refusalFs_push h
  | shown entry =>
    simp only [GrantStack.permitted, isOk_iff] at h ⊢
    exact readRegion_push h
  | run program =>
    simp only [GrantStack.permitted, admit_isOk_iff] at h ⊢
    exact ⟨runWithheld_push h.1, programRead_push h.2⟩
  | runName trace =>
    simp only [GrantStack.permitted, admitName_isOk_iff] at h ⊢
    exact ⟨runWithheld_push h.1, readRegion_push h.2⟩
  | flag flag =>
    simp only [GrantStack.permitted, GrantStack.permits, GrantStack.push, List.all_append,
      Bool.and_eq_true] at h ⊢
    exact h.1
  | net =>
    simp only [GrantStack.permitted, GrantStack.netVeto, GrantStack.net, GrantStack.push,
      List.filterMap_append] at h ⊢
    exact head?_isNone_of_append h
  | gpu =>
    simp only [GrantStack.permitted, GrantStack.gpu, GrantStack.push,
      List.filterMap_append] at h ⊢
    exact head?_isNone_of_append h

/-- A nested grant is granted nothing its enclosing grants withhold. -/
theorem capabilities_only_shrink (grants : GrantStack) (layers : List GrantLayer)
    (baseline : Baseline) (access : Access)
    (h : (layers.foldl GrantStack.push grants).permitted baseline access = true) :
    grants.permitted baseline access = true := by
  induction layers generalizing grants with
  | nil => exact h
  | cons layer layers ih => exact permitted_push (ih (grants.push layer) h)

end Attenuation

/-- A layer that reads `/work` less `/work/secret` still reads `/work/notes`. -/
theorem capabilities_only_shrink_notes :
    let host : Host := ⟨.linux, id⟩
    let work : Step := ⟨Name.ofStr "work", ⟨1, 2⟩, .dir⟩
    let secret : Trace := ⟨[], ⟨1, 1⟩, [work], [Name.ofStr "secret"], [], by decide⟩
    let notes : Trace := ⟨[], ⟨1, 1⟩, [work, ⟨Name.ofStr "notes", ⟨1, 3⟩, .file⟩], [], [], by decide⟩
    let fs := FsLayer.new [⟨"/work", .under ⟨[], [Name.ofStr "work"]⟩ []⟩] []
      [⟨"/work/secret", ⟨⟨secret⟩, none⟩⟩]
    let stack := GrantStack.root.push { GrantLayer.root with fs := some fs }
    stack.permitted ⟨[], none, []⟩ (.fs .read notes) = true ∧
      GrantStack.root.permitted ⟨[], none, []⟩ (.fs .read notes) = true := by
  intro host work secret notes fs stack
  have h : stack.permitted ⟨[], none, []⟩ (.fs .read notes) = true := by decide
  exact ⟨h, @capabilities_only_shrink host .root [{ GrantLayer.root with fs := some fs }] _ _ h⟩

end Ral.Authority
