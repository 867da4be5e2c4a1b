import Ral.Authority.Attenuation
import Ral.Authority.Extension

/-! # Where a write becomes runnable

The prefixes a stack both writes and runs are the live scopes of one more meet: of what
exec makes runnable, read as an fs table, with the write region. Only a directory, or
every program, makes a prefix runnable.
-/

namespace Ral.Authority
open Ral.Path

/-! ## The meet of some tables -/

section Reduce
variable {A D S : Type} [Allows A S] [Denies D S] [DecidableEq A] [DecidableEq D]

def reduceMeet : List (Table A D) → Option (Table A D)
  | [] => none
  | first :: rest => some (rest.foldl Table.meet first)

variable [LawfulAllows A]

omit [Denies D S] in
theorem supports_foldl_meet (first : Table A D) (rest : List (Table A D)) (s : S) :
    (rest.foldl Table.meet first).supports s = true ↔ ∀ t ∈ first :: rest, t.supports s = true := by
  induction rest generalizing first with
  | nil => simp
  | cons t rest ih =>
    rw [List.foldl_cons, ih]
    simp [Table.supports_meet, and_assoc]

omit [LawfulAllows A] in
theorem excludes_foldl_meet (first : Table A D) (rest : List (Table A D)) (s : S) :
    (rest.foldl Table.meet first).excludes s = true ↔ ∃ t ∈ first :: rest, t.excludes s = true := by
  induction rest generalizing first with
  | nil => simp
  | cons t rest ih =>
    rw [List.foldl_cons, ih]
    simp [Table.excludes_meet, or_assoc]

omit [Denies D S] in
theorem supports_reduceMeet {tables : List (Table A D)} {met : Table A D} (h : reduceMeet tables = some met) (s : S) :
    met.supports s = true ↔ ∀ t ∈ tables, t.supports s = true := by
  cases tables with
  | nil => cases h
  | cons first rest =>
    cases h
    exact supports_foldl_meet first rest s

omit [LawfulAllows A] in
theorem excludes_reduceMeet {tables : List (Table A D)} {met : Table A D} (h : reduceMeet tables = some met) (s : S) :
    met.excludes s = true ↔ ∃ t ∈ tables, t.excludes s = true := by
  cases tables with
  | nil => cases h
  | cons first rest =>
    cases h
    exact excludes_foldl_meet first rest s

end Reduce

/-! ## What exec makes runnable -/

/-- Everywhere for every program, and a directory's own extent. -/
def ExecAllow.runs : ExecAllow → Option FsAllow
  | .any => some (.under .everywhere)
  | .dir path => some (.under path)
  | .file _ _ _ | .tool _ => none

def ExecDeny.runs : ExecDeny → Option FsDeny
  | .dir path => some ⟨path⟩
  | .file _ | .name _ => none

def runnable (exec : ExecRules) : FsRules where
  allows := exec.allows.biUnion fun a => a.runs.toFinset
  denies := exec.denies.biUnion fun d => d.runs.toFinset

def ExecAllow.isDirectory : ExecAllow → Bool
  | .any | .dir _ => true
  | .file _ _ _ | .tool _ => false

def FsAllow.spelled : FsAllow → Option (GrantPath Extent)
  | .under path => some path
  | .runPlace _ => none

section Deputy
variable [Host]

/-- Whether no layer restricts exec. -/
def GrantStack.execIsTop (grants : GrantStack) : Bool := grants.exec.all fun exec => Axis.isTop exec

/-- The live part of the meet of what runs and what is written. -/
def GrantStack.deputyPaths (grants : GrantStack) (baseline : Baseline) : Multiset (GrantPath Extent) :=
  if grants.execIsTop then 0
  else
    match reduceMeet (grants.exec.map runnable), region grants .write baseline with
    | some runs, some writes => (runs.meet writes).live.val.filterMap FsAllow.spelled
    | _, _ => 0

omit [Host] in
theorem mem_runnable_allows {exec : ExecRules} {b : FsAllow} :
    b ∈ (runnable exec).allows ↔ ∃ a ∈ exec.allows, a.runs = some b := by
  simp [runnable]

omit [Host] in
theorem mem_runnable_denies {exec : ExecRules} {e : FsDeny} :
    e ∈ (runnable exec).denies ↔ ∃ d ∈ exec.denies, d.runs = some e := by
  simp [runnable]

theorem ExecAllow.contains_dir {a : ExecAllow} {s : Subject} :
    Allows.contains a (.dir s) = true ↔ ∃ b, a.runs = some b ∧ Allows.contains b s = true := by
  cases a <;> simp [Allows.contains, runs, GrantPath.everywhere, Extent.contains]

theorem ExecDeny.matched_dir {d : ExecDeny} {s : Subject} :
    (Denies.matched d (ExecSubject.dir s)).isSome = true ↔ ∃ e, d.runs = some e ∧ (Denies.matched e s).isSome = true := by
  cases d <;> simp [Denies.matched, runs]

theorem supports_runnable (exec : ExecRules) (s : Subject) :
    (runnable exec).supports s = true ↔ exec.supports (.dir s) = true := by
  rw [Table.supports_iff, Table.supports_iff]
  constructor
  · rintro ⟨b, hb, hs⟩
    obtain ⟨a, ha, hruns⟩ := mem_runnable_allows.mp hb
    exact ⟨a, ha, ExecAllow.contains_dir.mpr ⟨b, hruns, hs⟩⟩
  · rintro ⟨a, ha, hs⟩
    obtain ⟨b, hruns, hs⟩ := ExecAllow.contains_dir.mp hs
    exact ⟨b, mem_runnable_allows.mpr ⟨a, ha, hruns⟩, hs⟩

theorem excludes_runnable (exec : ExecRules) (s : Subject) :
    (runnable exec).excludes s = true ↔ exec.excludes (.dir s) = true := by
  rw [Table.excludes_iff, Table.excludes_iff]
  constructor
  · rintro ⟨e, he, hs⟩
    obtain ⟨d, hd, hruns⟩ := mem_runnable_denies.mp he
    exact ⟨d, hd, ExecDeny.matched_dir.mpr ⟨e, hruns, hs⟩⟩
  · rintro ⟨d, hd, hs⟩
    obtain ⟨e, hruns, hs⟩ := ExecDeny.matched_dir.mp hs
    exact ⟨e, mem_runnable_denies.mpr ⟨d, hd, hruns⟩, hs⟩

theorem supports_dir_iff (exec : ExecRules) (s : Subject) : exec.supports (.dir s) = true ↔
    ∃ a ∈ exec.allows, a.isDirectory = true ∧ Allows.contains a (.program s) = true := by
  rw [Table.supports_iff]
  constructor
  · rintro ⟨a, ha, hs⟩
    refine ⟨a, ha, ?_⟩
    cases a <;> simp_all [Allows.contains, ExecAllow.isDirectory]
  · rintro ⟨a, ha, hdir, hs⟩
    refine ⟨a, ha, ?_⟩
    cases a <;> simp_all [Allows.contains, ExecAllow.isDirectory]

theorem excludes_program {exec : ExecRules} {s : Subject} (h : exec.excludes (.dir s) = true) :
    exec.excludes (.program s) = true := by
  obtain ⟨d, hd, hs⟩ := Table.excludes_iff.mp h
  refine Table.excludes_iff.mpr ⟨d, hd, ?_⟩
  cases d with
  | dir path => exact hs
  | file path => simp [Denies.matched] at hs
  | name key => simp [Denies.matched] at hs

theorem supports_runs {layers : List ExecRules} {runs : FsRules} (h : reduceMeet (layers.map runnable) = some runs)
    (s : Subject) : runs.supports s = true ↔ ∀ layer ∈ layers, ∃ a ∈ layer.allows,
      a.isDirectory = true ∧ Allows.contains a (.program s) = true := by
  rw [supports_reduceMeet h]
  simp [supports_runnable, supports_dir_iff]

theorem excludes_runs {layers : List ExecRules} {runs : FsRules} (h : reduceMeet (layers.map runnable) = some runs)
    {exec : ExecRules} (hexec : reduceMeet layers = some exec) {s : Subject} (hs : runs.excludes s = true) :
    exec.excludes (.program s) = true := by
  obtain ⟨t, ht, hexcludes⟩ := (excludes_reduceMeet h s).mp hs
  obtain ⟨layer, hlayer, rfl⟩ := List.mem_map.mp ht
  rw [excludes_reduceMeet hexec]
  exact ⟨layer, hlayer, excludes_program ((excludes_runnable layer s).mp hexcludes)⟩

/-! ## Live scopes -/

theorem FsRules.excludes_of_own {t : FsRules} {a : FsAllow} {s : Subject} (hs : Allows.contains a s = true)
    (h : t.excludes (Allows.own a) = true) : t.excludes s = true := by
  obtain ⟨d, hd, hmatched⟩ := Table.excludes_iff.mp h
  refine Table.excludes_iff.mpr ⟨d, hd, ?_⟩
  cases a with
  | runPlace place => exact Excluded.matched_beneath hs hmatched
  | under path =>
    have hmatched : (d.path.real.matched path.real.own .within).isSome = true := hmatched
    have hs : path.real.contains s = true := hs
    cases hreal : path.real with
    | everywhere =>
      rw [hreal, Extent.own, Excluded.matched_isSome] at hmatched
      obtain ⟨hold, -, hmatched⟩ := hmatched
      rw [Hold.matched_isSome] at hmatched
      obtain ⟨_, hposition, -⟩ := hmatched
      cases hposition
    | under position passed =>
      rw [hreal] at hmatched hs
      exact Excluded.matched_beneath hs hmatched

theorem FsRules.supports_iff_live {t : FsRules} {s : Subject} (hs : t.excludes s = false) :
    t.supports s = true ↔ ∃ a ∈ t.live, Allows.contains a s = true := by
  rw [Table.supports_iff]
  constructor
  · rintro ⟨a, ha, hcontains⟩
    have hown : t.excludes (Allows.own a) = false := by
      rw [← Bool.not_eq_true] at hs ⊢
      exact fun h => hs (FsRules.excludes_of_own hcontains h)
    refine ⟨a, ?_, hcontains⟩
    rw [Table.live, Finset.mem_filter, Table.evidence_permits]
    exact ⟨ha, Table.supports_own_of_mem ha, hown⟩
  · rintro ⟨a, ha, hcontains⟩
    exact ⟨a, (Finset.mem_filter.mp ha).1, hcontains⟩

/-! ## The write region holds no place -/

def AllSpelled (t : FsRules) : Prop := ∀ a ∈ t.allows, ∃ path, a = .under path

theorem AllSpelled.meet {t u : FsRules} (ht : AllSpelled t) (hu : AllSpelled u) : AllSpelled (t.meet u) := by
  intro a ha
  rcases (Table.mem_allows_meet.mp ha).1 with ha | ha
  · exact ht a ha
  · exact hu a ha

theorem foldAll_write_spelled {layers : List GrantLayer} (h : ∀ l ∈ layers, l.Formed) :
    ∀ t ∈ (foldAll .write layers).plain, AllSpelled t := by
  induction layers using List.reverseRecOn with
  | nil =>
    intro t ht
    cases ht
  | append_singleton layers layer ih =>
    have ih := ih fun l hl => h l (List.mem_append_left _ hl)
    have hlayer : layer.Formed := h layer (by simp)
    rw [foldAll_append_singleton]
    cases hfs : layer.fs with
    | none =>
      rw [(foldLayer_of_fs_none .write (foldAll .write layers) hfs).1]
      exact ih
    | some fs =>
      have hwrite : AllSpelled fs.write := (hlayer.fs fs hfs).prefixes
      simp only [foldLayer, hfs, meetOnto]
      intro t ht
      cases hplain : (foldAll .write layers).plain with
      | none =>
        rw [hplain] at ht
        cases ht
        exact hwrite
      | some held =>
        rw [hplain] at ht
        cases ht
        exact (ih held hplain).meet hwrite

theorem region_write_spelled {grants : GrantStack} {baseline : Baseline} (h : ∀ l ∈ grants.layers, l.Formed)
    {writes : FsRules} (hw : region grants .write baseline = some writes) : AllSpelled writes := by
  obtain ⟨f, hf, rfl⟩ := Option.map_eq_some_iff.mp hw
  rw [fold_eq] at hf
  obtain ⟨plain, hplain, hf⟩ := Option.bind_eq_some_iff.mp hf
  obtain ⟨placed, -, rfl⟩ := Option.map_eq_some_iff.mp hf
  exact foldAll_write_spelled h plain hplain

omit [Host] in
theorem runnable_spelled (exec : ExecRules) : AllSpelled (runnable exec) := by
  intro b hb
  obtain ⟨a, -, hruns⟩ := mem_runnable_allows.mp hb
  cases a <;> cases hruns
  · exact ⟨_, rfl⟩
  · exact ⟨_, rfl⟩

theorem reduceMeet_spelled {tables : List FsRules} (h : ∀ t ∈ tables, AllSpelled t) {met : FsRules}
    (hmet : reduceMeet tables = some met) : AllSpelled met := by
  cases tables with
  | nil => cases hmet
  | cons first rest =>
    cases hmet
    have hfirst := h first (by simp)
    have hrest : ∀ t ∈ rest, AllSpelled t := fun t ht => h t (by simp [ht])
    clear h
    induction rest generalizing first with
    | nil => exact hfirst
    | cons t rest ih =>
      exact ih (first.meet t) (hfirst.meet (hrest t (by simp))) fun u hu => hrest u (by simp [hu])

/-! ## The report -/

theorem mem_spelled_live {t : FsRules} (ht : AllSpelled t) {s : Subject} :
    (∃ path ∈ t.live.val.filterMap FsAllow.spelled, path.real.contains s = true) ↔
      ∃ a ∈ t.live, Allows.contains a s = true := by
  constructor
  · rintro ⟨path, hpath, hs⟩
    obtain ⟨a, ha, hspelled⟩ := (Multiset.mem_filterMap _ _).mp hpath
    cases a with
    | under spelled =>
      cases hspelled
      exact ⟨.under path, ha, hs⟩
    | runPlace place => cases hspelled
  · rintro ⟨a, ha, hs⟩
    obtain ⟨path, rfl⟩ := ht a (Finset.mem_filter.mp ha).1
    exact ⟨path, (Multiset.mem_filterMap _ _).mpr ⟨.under path, ha, rfl⟩, hs⟩

namespace GrantStack

variable {grants : GrantStack} {baseline : Baseline}

theorem rules_eq (grants : GrantStack) : rules grants = reduceMeet grants.exec := by
  unfold rules reduceMeet
  cases grants.exec <;> rfl

/-- Everything written and run is reported, and nothing else, up to the exclusions. -/
theorem deputyPaths_exact (hformed : ∀ l ∈ grants.layers, l.Formed) (hexec : grants.execIsTop = false) :
    (region grants .write baseline = none → grants.deputyPaths baseline = 0) ∧
    ∀ writes, region grants .write baseline = some writes → ∃ exec, rules grants = some exec ∧ ∀ s : Subject,
      ((∃ path ∈ grants.deputyPaths baseline, path.real.contains s = true) ∧
        writes.excludes s = false ∧ exec.excludes (.program s) = false) ↔
      ((writes.evidence s).permits = true ∧ (exec.evidence (.program s)).permits = true ∧
        ∀ layer ∈ grants.exec, ∃ a ∈ layer.allows,
          a.isDirectory = true ∧ Allows.contains a (.program s) = true) := by
  cases hlayers : grants.exec with
  | nil => simp [execIsTop, hlayers] at hexec
  | cons first rest =>
    obtain ⟨runs, hruns⟩ : ∃ runs, reduceMeet (grants.exec.map runnable) = some runs := by simp [hlayers, reduceMeet]
    obtain ⟨exec, hrules⟩ : ∃ exec, reduceMeet grants.exec = some exec := by simp [hlayers, reduceMeet]
    rw [← hlayers]
    constructor
    · intro hnone
      simp [deputyPaths, hexec, hruns, hnone]
    · intro writes hwrites
      refine ⟨exec, (rules_eq grants).trans hrules, fun s => ?_⟩
      have hpaths : grants.deputyPaths baseline = (runs.meet writes).live.val.filterMap FsAllow.spelled := by
        simp [deputyPaths, hexec, hruns, hwrites]
      have hspelled : AllSpelled (runs.meet writes) := by
        apply AllSpelled.meet
        · apply reduceMeet_spelled _ hruns
          intro t ht
          obtain ⟨layer, -, rfl⟩ := List.mem_map.mp ht
          exact runnable_spelled layer
        · exact region_write_spelled hformed hwrites
      rw [hpaths, mem_spelled_live hspelled, Table.evidence_permits, Table.evidence_permits]
      have hdirs := supports_runs hruns s
      constructor
      · rintro ⟨hlive, hwritten, hexecuted⟩
        have hboth : (runs.meet writes).supports s = true := by
          obtain ⟨a, ha, hs⟩ := hlive
          exact Table.supports_of_mem (Finset.mem_filter.mp ha).1 hs
        rw [Table.supports_meet, Bool.and_eq_true] at hboth
        have hall := hdirs.mp hboth.1
        refine ⟨⟨hboth.2, hwritten⟩, ⟨?_, hexecuted⟩, hall⟩
        rw [supports_reduceMeet hrules]
        intro layer hlayer
        obtain ⟨a, ha, -, hs⟩ := hall layer hlayer
        exact Table.supports_of_mem ha hs
      · rintro ⟨⟨hwrites, hwritten⟩, ⟨-, hexecuted⟩, hall⟩
        refine ⟨?_, hwritten, hexecuted⟩
        have hrun : runs.excludes s = false := by
          rw [← Bool.not_eq_true] at hexecuted ⊢
          exact fun h => hexecuted (excludes_runs hruns hrules h)
        have hexcludes : (runs.meet writes).excludes s = false := by
          rw [Table.excludes_meet, hrun, hwritten]
          rfl
        rw [← FsRules.supports_iff_live hexcludes, Table.supports_meet, Bool.and_eq_true]
        exact ⟨hdirs.mpr hall, hwrites⟩

end GrantStack

end Deputy

/-! ## A tool in a written directory -/

def bin : RealPath := ⟨[], [Name.ofStr "bin"]⟩

def binTool : RealPath := bin.child (Name.ofStr "tool")

def writingBin (exec : ExecAllow) : GrantStack := ⟨[{ GrantLayer.root with
  fs := some (FsLayer.new [] [⟨"/bin", .under bin []⟩] [])
  exec := some ⟨{exec}, ∅⟩ }]⟩

def noBaseline : Baseline := ⟨[], none, []⟩

theorem writingBin_formed (exec : ExecAllow) : ∀ l ∈ (writingBin exec).layers, @GrantLayer.Formed folding l := by
  intro l hl
  obtain rfl : l = _ := by simpa [writingBin] using hl
  apply @GrantLayer.Formed.mk folding
  · intro fs hfs
    cases hfs
    exact FsLayer.formed_new _ _ _
  · intro rules hrules
    cases hrules
    intro key hkey
    simp at hkey

/-- A file written and run by its own name is under no reported directory. -/
theorem file_written_and_run_unreported :
    @GrantStack.execIsTop folding (writingBin (.file "/bin/tool" binTool none)) = false ∧
    ∃ writes exec, @region folding (writingBin (.file "/bin/tool" binTool none)) .write noBaseline = some writes ∧
      @rules folding (writingBin (.file "/bin/tool" binTool none)) = some exec ∧
      (@Table.evidence _ _ _ (@instAllowsFsAllowSubject folding) (@instDeniesFsDenySubject folding) writes
        (.position binTool)).permits = true ∧
      (@Table.evidence _ _ _ (@instAllowsExecAllowExecSubject folding) (@instDeniesExecDenyExecSubject folding) exec
        (.program (.position binTool))).permits = true ∧
      @GrantStack.deputyPaths folding (writingBin (.file "/bin/tool" binTool none)) noBaseline = 0 := by
  refine ⟨by decide, _, _, rfl, rfl, ?_, ?_, ?_⟩
  · decide
  · decide
  · decide

theorem deputyPaths_exact_bin : ∃ path ∈ @GrantStack.deputyPaths folding (writingBin (.dir ⟨"/bin", .under bin []⟩)) noBaseline,
    @Extent.contains folding path.real (.position binTool) = true := by
  let _ : Host := folding
  have hexact := (@GrantStack.deputyPaths_exact _ _ noBaseline
    (writingBin_formed (.dir ⟨"/bin", .under bin []⟩)) (by decide)).2 _ rfl
  obtain ⟨exec, hrules, hexact⟩ := hexact
  cases hrules
  refine ((hexact (.position binTool)).mpr ⟨by decide, by decide, ?_⟩).1
  intro layer hlayer
  obtain rfl : layer = _ := by simpa [writingBin, GrantStack.exec] using hlayer
  exact ⟨_, Finset.mem_singleton_self _, rfl, by decide⟩

end Ral.Authority
