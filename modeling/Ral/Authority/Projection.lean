import Ral.Authority.Deputy
import Ral.Authority.Stages

/-! # What the kernel is handed

The effective grant as rules a backend renders: the live scopes of both fs regions and one
list of exclusions, and the exec table, each beside the files a launch needs. Read as
allowances less exclusions they give the guard's own verdict, but for that support.
-/

namespace Ral.Authority
open Ral.Path

/-! ## Support -/

/-- A host's files as `execve` meets them, at rest. -/
class Carrier where
  Spelling : Type
  spell : RealPath → Spelling
  frozen : RealPath → String
  walk : Spelling → Option Trace
  /-- The walk that takes nothing this user can have written. -/
  systemWalk : Spelling → Option Trace
  hops : RealPath → List Spelling
  /-- What the linker patterns match; nothing off Linux. -/
  linkerNames : List Spelling

section Of
variable [Host] [Carrier]

def execEnforced : Bool := Host.os ≠ .windows

def withholdsGpu : Bool := Host.os ≠ .windows

def trustedReal (at? : Carrier.Spelling) : Option Trace :=
  (Carrier.systemWalk at?).filter fun t => t.kind = some .file

def file (at? : Carrier.Spelling) : Option Trace := (Carrier.walk at?).filter fun t => t.kind = some .file

def unlessExcluded (excluded : Trace → Bool) (held : Option Trace) : Option RealPath :=
  (held.filter fun t => !excluded t).map Trace.real

/-- Interpreter hops followed, as the kernel bounds them. -/
def carrierDepth : ℕ := 4

def carriersFrom (excluded : Trace → Bool) : ℕ → Finset RealPath → Finset RealPath → Finset RealPath
  | 0, _, found => found
  | n + 1, frontier, found =>
    let fresh := (frontier.biUnion fun program =>
      ((Carrier.hops program).filterMap fun hop => unlessExcluded excluded (trustedReal hop)).toFinset) \ found
    carriersFrom excluded n fresh (found ∪ fresh)

/-- Every hop only the system can have written, from a program only it can have written. -/
def carriers (programs : Finset RealPath) (excluded : Trace → Bool) : Finset RealPath :=
  carriersFrom excluded carrierDepth
    (programs.biUnion fun program => (unlessExcluded excluded (trustedReal (Carrier.spell program))).toFinset) ∅

def linkers (excluded : Trace → Bool) : Finset RealPath :=
  (Carrier.linkerNames.filterMap fun name => unlessExcluded excluded (file name)).toFinset

omit [Carrier] in
def ExecRules.allowedFiles (r : ExecRules) : Finset RealPath :=
  r.live.biUnion fun a => match a with
    | .file _ real _ => {real}
    | _ => ∅

def Program.real? : Program → Option RealPath
  | .file _ located => some located.real
  | .tool _ => none

def liveSupport (table : Option ExecRules) (read : Option FsRules) (admitted : Option Admitted) : Finset RealPath :=
  if Host.os = .windows then ∅
  else
    let launched := admitted.bind fun a => a.program.real?
    let files := (table.map ExecRules.allowedFiles).getD ∅
    let excluded (t : Trace) := table.any (fun r => r.excludes (.program (.access t))) ||
      read.any fun r => r.excludes (.access t)
    carriers (launched.toFinset ∪ files) excluded ∪ if table.isSome then linkers excluded else ∅

/-! ## The projection -/

def ExecAllow.isTool : ExecAllow → Bool
  | .tool _ => true
  | _ => false

def ExecAllow.support (real : RealPath) : ExecAllow := .file (Carrier.frozen real) real none

/-- The table without the bundled tools, its support joined. -/
def ExecRules.forKernel (r : ExecRules) (support : Finset RealPath) : ExecRules :=
  Table.join ⟨r.allows.filter fun a => !a.isTool, r.denies⟩ ⟨support.image ExecAllow.support, ∅⟩

/-- What a backend renders of the fs axis. -/
structure KernelFs where
  read : Finset FsAllow
  write : Finset FsAllow
  deny : Finset (GrantPath Excluded)

inductive FsProjection
  | unrestricted
  | restricted (rules : KernelFs)

inductive ExecProjection
  | unrestricted
  | restricted (rules : ExecRules)

structure SandboxProjection where
  fs : FsProjection
  net : Bool
  gpu : Bool
  exec : ExecProjection

omit [Carrier] in
def GrantStack.fsIsTop (grants : GrantStack) : Bool :=
  (grants.layers.filterMap GrantLayer.fs).all fun fs => Axis.isTop fs

namespace SandboxProjection
variable (grants : GrantStack) (baseline : Baseline) (admitted : Option Admitted)

def regions : Option (FsRules × FsRules) :=
  match runningRegion grants baseline, region grants .write baseline with
  | some read, some write => if grants.fsIsTop then none else some (read, write)
  | _, _ => none

def table : Option ExecRules :=
  (match admitted with
    | none => rules grants
    | some a => a.rules).filter fun _ => !grants.execIsTop

def support : Finset RealPath :=
  liveSupport (table grants admitted) ((regions grants baseline).map Prod.fst) admitted

omit [Carrier] in
def fsOf (regions : Option (FsRules × FsRules)) (live : Finset RealPath) : FsProjection :=
  match regions with
  | none => .unrestricted
  | some (read, write) =>
    let read := read.join ⟨live.image FsAllow.runPlace, ∅⟩
    .restricted ⟨read.live, write.live, read.denies.image FsDeny.path⟩

def execOf (table : Option ExecRules) (live : Finset RealPath) : ExecProjection :=
  match table with
  | none => .unrestricted
  | some table => .restricted (table.forKernel live)

/-- `none` when no axis restricts, nor exec where the host renders it. -/
def of : Option SandboxProjection :=
  let online := grants.netVeto.isNone
  let gpu := !(withholdsGpu && decide (.withheld ∈ grants.gpu))
  if (regions grants baseline).isNone && online && gpu && !(execEnforced && (table grants admitted).isSome) then none
  else
    let live := support grants baseline admitted
    some ⟨fsOf (regions grants baseline) live, online, gpu, execOf (table grants admitted) live⟩

end SandboxProjection

/-! ## What the rules admit -/

omit [Carrier]

def KernelFs.table (k : KernelFs) : FsOp → Finset FsAllow
  | .read => k.read
  | .write => k.write

/-- Allowances less exclusions. -/
def KernelFs.admits (k : KernelFs) (op : FsOp) (s : Subject) : Prop :=
  (∃ a ∈ k.table op, Allows.contains a s = true) ∧ ∀ d ∈ k.deny, d.real.matched s .within = none

def FsProjection.admits : FsProjection → FsOp → Subject → Prop
  | .unrestricted, _, _ => True
  | .restricted k, op, s => k.admits op s

def ExecProjection.permits : ExecProjection → ExecSubject → Prop
  | .unrestricted, _ => True
  | .restricted r, s => (r.evidence s).permits = true

end Of

/-! ## Support yields to every exclusion -/

section Spares
variable [Host]

def Spared (excluded : Trace → Bool) (real : RealPath) : Prop :=
  ∃ t : Trace, t.real = real ∧ t.kind = some .file ∧ excluded t = false

variable {excluded : Trace → Bool} {table : Option ExecRules} {read : Option FsRules}

omit [Host] in
theorem spared_of_file {walked : Option Trace} {real : RealPath}
    (h : unlessExcluded excluded (walked.filter fun t => t.kind = some .file) = some real) : Spared excluded real := by
  obtain ⟨t, ht, hreal⟩ := Option.map_eq_some_iff.mp h
  obtain ⟨ht, hspared⟩ := Option.filter_eq_some_iff.mp ht
  obtain ⟨-, hfile⟩ := Option.filter_eq_some_iff.mp ht
  exact ⟨t, hreal, by simpa using hfile, by simpa using hspared⟩

variable [Carrier]

omit [Host] in
theorem carriersFrom_spared (n : ℕ) {frontier found : Finset RealPath} (hfound : ∀ p ∈ found, Spared excluded p) :
    ∀ p ∈ carriersFrom excluded n frontier found, Spared excluded p := by
  induction n generalizing frontier found with
  | zero => exact hfound
  | succ n ih =>
    refine ih fun p hp => ?_
    rcases Finset.mem_union.mp hp with hp | hp
    · exact hfound p hp
    · obtain ⟨program, -, hp⟩ := Finset.mem_biUnion.mp (Finset.mem_sdiff.mp hp).1
      obtain ⟨hop, -, hhop⟩ := List.mem_filterMap.mp (List.mem_toFinset.mp hp)
      exact spared_of_file hhop

/-- No support is a file either axis excludes. -/
theorem liveSupport_spared {admitted : Option Admitted} {p : RealPath} (hp : p ∈ liveSupport table read admitted) :
    Spared (fun t => table.any (fun r => r.excludes (.program (.access t))) ||
      read.any fun r => r.excludes (.access t)) p := by
  unfold liveSupport at hp
  split at hp
  · simp at hp
  · rcases Finset.mem_union.mp hp with hp | hp
    · exact carriersFrom_spared carrierDepth (by simp) p hp
    · split at hp
      · obtain ⟨name, -, hname⟩ := List.mem_filterMap.mp (List.mem_toFinset.mp hp)
        exact spared_of_file hname
      · simp at hp

end Spares

/-! ## Rules beside support -/

/-- Allowances joined add what they hold, unless an exclusion does. -/
theorem Table.permits_join_allows {A D S : Type} [Allows A S] [Denies D S] [DecidableEq A] [DecidableEq D]
    {t : Table A D} {allows : Finset A} {s : S} : ((t.join ⟨allows, ∅⟩).evidence s).permits = true ↔
      (t.evidence s).permits = true ∨ (∃ a ∈ allows, Allows.contains a s = true) ∧ t.excludes s = false := by
  have hexcludes : (t.join ⟨allows, ∅⟩).excludes s = t.excludes s := by
    rw [Table.excludes_join, Table.excludes_of_denies_empty (t := ⟨allows, ∅⟩) rfl, Bool.or_false]
  rw [Table.evidence_permits, Table.evidence_permits, hexcludes, Table.supports_join, Bool.or_eq_true,
    Table.supports_iff (t := ⟨allows, ∅⟩), or_and_right]

section Rules
variable [Host]

def atFile (s : Subject) (f : RealPath) : Bool := s.position?.any fun q => f.contains q && q.contains f

/-- The live scopes less the exclusions are the table again. -/
theorem live_permits {t : FsRules} {deny : Finset FsDeny} (hdeny : t.denies = deny) {s : Subject} :
    ((∃ a ∈ t.live, Allows.contains a s = true) ∧ ∀ d ∈ deny.image FsDeny.path, d.real.matched s .within = none) ↔
      (t.evidence s).permits = true := by
  have hexcludes : (∀ d ∈ deny.image FsDeny.path, d.real.matched s .within = none) ↔ t.excludes s = false := by
    rw [← Bool.not_eq_true, Table.excludes_iff, hdeny]
    simp [Denies.matched]
  rw [hexcludes, Table.evidence_permits]
  constructor
  · rintro ⟨hlive, hnot⟩
    exact ⟨(FsRules.supports_iff_live hnot).mpr hlive, hnot⟩
  · rintro ⟨hsupports, hnot⟩
    exact ⟨(FsRules.supports_iff_live hnot).mp hsupports, hnot⟩

variable [Carrier]

theorem permits_forKernel {r : ExecRules} {support : Finset RealPath} {s : Subject} :
    ((r.forKernel support).evidence (.program s)).permits = true ↔ (r.evidence (.program s)).permits = true ∨
      (∃ f ∈ support, atFile s f = true) ∧ r.excludes (.program s) = false := by
  have hwithout : (⟨r.allows.filter fun a => !a.isTool, r.denies⟩ : ExecRules).evidence (.program s) =
      r.evidence (.program s) := by
    have hsupports : (⟨r.allows.filter fun a => !a.isTool, r.denies⟩ : ExecRules).supports (.program s) =
        r.supports (.program s) := by
      rw [Bool.eq_iff_iff, Table.supports_iff, Table.supports_iff]
      constructor
      · rintro ⟨a, ha, hs⟩
        exact ⟨a, (Finset.mem_filter.mp ha).1, hs⟩
      · rintro ⟨a, ha, hs⟩
        refine ⟨a, Finset.mem_filter.mpr ⟨ha, ?_⟩, hs⟩
        cases a with
        | tool name => cases ExecAllow.contains_tool_iff.mp hs
        | _ => rfl
    rw [Table.evidence, Table.evidence, hsupports]
    rfl
  have hsame : (⟨r.allows.filter fun a => !a.isTool, r.denies⟩ : ExecRules).excludes (.program s) =
    r.excludes (.program s) := rfl
  rw [ExecRules.forKernel, Table.permits_join_allows, hwithout, hsame]
  refine or_congr_right (and_congr_left fun _ => ?_)
  constructor
  · rintro ⟨a, ha, hs⟩
    obtain ⟨f, hf, rfl⟩ := Finset.mem_image.mp ha
    exact ⟨f, hf, hs⟩
  · rintro ⟨f, hf, hs⟩
    exact ⟨_, Finset.mem_image_of_mem _ hf, hs⟩

end Rules

/-! ## The regions share their exclusions -/

section Regions
variable [Host] {grants : GrantStack} {baseline : Baseline}

omit [Host] in
theorem denies_meetOnto {A D S : Type} [Allows A S] [DecidableEq A] [DecidableEq D] (acc : Option (Table A D))
    (next : Table A D) : (meetOnto acc next).map Table.denies =
      some ((acc.map Table.denies).elim next.denies fun held => held ∪ next.denies) := by
  cases acc <;> rfl

theorem foldAll_denies {layers : List GrantLayer} (h : ∀ l ∈ layers, l.Formed) :
    (foldAll .read layers).plain.map Table.denies = (foldAll .write layers).plain.map Table.denies := by
  induction layers using List.reverseRecOn with
  | nil => rfl
  | append_singleton layers layer ih =>
    have ih := ih fun l hl => h l (List.mem_append_left _ hl)
    rw [foldAll_append_singleton, foldAll_append_singleton]
    cases hfs : layer.fs with
    | none => rw [(foldLayer_of_fs_none _ _ hfs).1, (foldLayer_of_fs_none _ _ hfs).1, ih]
    | some fs =>
      have hsame : fs.read.denies = fs.write.denies := ((h layer (by simp)).fs fs hfs).denies
      simp only [foldLayer, hfs]
      rw [denies_meetOnto, denies_meetOnto, ih]
      simp only [FsLayer.table, hsame]

omit [Host] in
theorem denies_withSystemReads (op : FsOp) (t : FsRules) : (withSystemReads op baseline t).denies = t.denies := by
  cases op with
  | read => exact Finset.union_empty _
  | write => rfl

theorem region_denies (h : ∀ l ∈ grants.layers, l.Formed) {read write : FsRules}
    (hread : runningRegion grants baseline = some read) (hwrite : region grants .write baseline = some write) :
    read.denies = write.denies := by
  obtain ⟨f, hf, rfl⟩ := Option.map_eq_some_iff.mp hread
  obtain ⟨g, hg, rfl⟩ := Option.map_eq_some_iff.mp hwrite
  rw [(fold_extends hf).denies]
  rw [fold_eq] at hf hg
  obtain ⟨plain, hplain, hf⟩ := Option.bind_eq_some_iff.mp hf
  obtain ⟨placed, -, rfl⟩ := Option.map_eq_some_iff.mp hf
  obtain ⟨plain', hplain', hg⟩ := Option.bind_eq_some_iff.mp hg
  obtain ⟨placed', -, rfl⟩ := Option.map_eq_some_iff.mp hg
  have hsame := foldAll_denies h
  rw [hplain, hplain'] at hsame
  rw [denies_withSystemReads, denies_withSystemReads]
  exact Option.some.inj hsame

/-! ## An axis at the top restricts nothing -/

theorem foldAll_top {op : FsOp} {layers : List GrantLayer} (h : ∀ l ∈ layers, l.Formed)
    (htop : ∀ l ∈ layers, ∀ fs ∈ l.fs, fs.isTop = true) :
    ∀ t ∈ (foldAll op layers).plain, ∀ s : Subject, (t.evidence s).permits = true := by
  induction layers using List.reverseRecOn with
  | nil =>
    intro t ht
    cases ht
  | append_singleton layers layer ih =>
    have ih := ih (fun l hl => h l (List.mem_append_left _ hl)) fun l hl => htop l (List.mem_append_left _ hl)
    rw [foldAll_append_singleton]
    cases hfs : layer.fs with
    | none =>
      rw [(foldLayer_of_fs_none _ _ hfs).1]
      exact ih
    | some fs =>
      have hlayer : ∀ s : Subject, ((fs.table op).evidence s).permits = true := fun s =>
        (LawfulAxis.isTop_iff ((h layer (by simp)).fs fs hfs)).mp (htop layer (by simp) fs hfs) (op, s)
      intro t ht s
      simp only [foldLayer, hfs] at ht
      cases hplain : (foldAll op layers).plain with
      | none =>
        rw [hplain] at ht
        cases ht
        exact hlayer s
      | some held =>
        rw [hplain] at ht
        cases ht
        obtain ⟨hsupports, hexcludes⟩ := Table.evidence_permits.mp (ih held hplain s)
        obtain ⟨hsupports', hexcludes'⟩ := Table.evidence_permits.mp (hlayer s)
        rw [Table.evidence_permits, Table.supports_meet, Table.excludes_meet, hsupports, hexcludes, hsupports', hexcludes']
        exact ⟨rfl, rfl⟩

omit [Host] in
theorem Table.Extends.permits {A D S : Type} [Allows A S] [Denies D S] {t u : Table A D} (h : u.Extends t) {s : S}
    (ht : (t.evidence s).permits = true) : (u.evidence s).permits = true := by
  obtain ⟨hsupports, hexcludes⟩ := Table.evidence_permits.mp ht
  rw [Table.evidence_permits, Table.excludes, h.denies]
  exact ⟨h.supports hsupports, hexcludes⟩

theorem fold_top (h : ∀ l ∈ grants.layers, l.Formed) (htop : grants.fsIsTop = true) {op : FsOp} {f : Folded}
    (hf : fold grants op baseline = some f) (s : Subject) :
    (f.plain.evidence s).permits = true ∧ (f.placed.evidence s).permits = true := by
  have hplaced := fold_extends hf
  have hlayers : ∀ l ∈ grants.layers, ∀ fs ∈ l.fs, FsLayer.isTop fs = true := by
    intro l hl fs hfs
    exact List.all_eq_true.mp htop fs (List.mem_filterMap.mpr ⟨l, hl, hfs⟩)
  have hplain : (f.plain.evidence s).permits = true := by
    rw [fold_eq] at hf
    obtain ⟨plain, hplain, hf⟩ := Option.bind_eq_some_iff.mp hf
    obtain ⟨placed, -, rfl⟩ := Option.map_eq_some_iff.mp hf
    have hpermits := foldAll_top h hlayers plain hplain s
    cases op with
    | read => exact Table.permits_join_allows.mpr (.inl hpermits)
    | write => exact hpermits
  exact ⟨hplain, hplaced.permits hplain⟩

theorem rules_top (h : ∀ l ∈ grants.layers, l.Formed) (htop : grants.execIsTop = true) {r : ExecRules}
    (hr : rules grants = some r) (s : ExecSubject) : (r.evidence s).permits = true := by
  rw [GrantStack.rules_eq] at hr
  have hlayer : ∀ t ∈ grants.exec, (t.evidence s).permits = true := by
    intro t ht
    obtain ⟨l, hl, hexec⟩ := List.mem_filterMap.mp ht
    exact (LawfulAxis.isTop_iff ((h l hl).exec t hexec)).mp (List.all_eq_true.mp htop t ht) s
  rw [Table.evidence_permits, supports_reduceMeet hr, ← Bool.not_eq_true, excludes_reduceMeet hr]
  refine ⟨fun t ht => (Table.evidence_permits.mp (hlayer t ht)).1, ?_⟩
  rintro ⟨t, ht, hexcludes⟩
  rw [(Table.evidence_permits.mp (hlayer t ht)).2] at hexcludes
  cases hexcludes

end Regions

/-! ## The guard and the kernel -/

section Guard
variable [Host] {grants : GrantStack} {baseline : Baseline}

theorem isSome_fold (op : FsOp) : (fold grants op baseline).isSome = (foldAll op grants.layers).plain.isSome := by
  rw [fold_eq]
  have hpaired := foldAll_paired op grants.layers
  cases hplain : (foldAll op grants.layers).plain with
  | none => rfl
  | some plain =>
    rw [hplain] at hpaired
    generalize (foldAll op grants.layers).placed = placed at hpaired
    cases hpaired
    rfl

/-- Some layer holds an fs opinion, or neither region stands. -/
theorem runningRegion_isSome (h : ∀ l ∈ grants.layers, l.Formed) :
    (runningRegion grants baseline).isSome = (region grants .write baseline).isSome := by
  have hsame := congrArg Option.isSome (foldAll_denies h)
  rw [Option.isSome_map, Option.isSome_map] at hsame
  rw [runningRegion, region, Option.isSome_map, Option.isSome_map, isSome_fold, isSome_fold, hsame]

def AdmittedBy (grants : GrantStack) (baseline : Baseline) (admitted : Option Admitted) : Prop :=
  ∀ a ∈ admitted, ∃ program, grants.admitProgram baseline program = .ok a

theorem rules_of_admitted {program : Program} {a : Admitted} (h : grants.admitProgram baseline program = .ok a) :
    a.rules = rules grants := by
  unfold GrantStack.admitProgram at h
  cases hrun : runWithheld (rules grants) program.subject with
  | error why => simp [hrun, Except.mapError, bind, Except.bind] at h
  | ok u =>
    cases program with
    | tool name =>
      cases hread : grants.toolRead baseline with
      | error why => simp [hrun, hread, Except.mapError, bind, Except.bind] at h
      | ok u =>
        simp [hrun, hread, Except.mapError, bind, Except.bind, pure, Except.pure] at h
        rw [← h]
    | file arg0 located =>
      cases hread : (grants.readRegion baseline).withheld (.access located) with
      | error why => simp [hrun, hread, Except.mapError, bind, Except.bind] at h
      | ok u =>
        simp [hrun, hread, Except.mapError, bind, Except.bind, pure, Except.pure] at h
        rw [← h]

end Guard

namespace SandboxProjection
variable [Host] [Carrier] {grants : GrantStack} {baseline : Baseline} {admitted : Option Admitted}

omit [Carrier] in
theorem regions_eq_some {both : FsRules × FsRules} (h : regions grants baseline = some both) :
    runningRegion grants baseline = some both.1 ∧ region grants .write baseline = some both.2 := by
  unfold regions at h
  split at h
  · next hread hwrite =>
    split at h
    · cases h
    · cases h
      exact ⟨hread, hwrite⟩
  · cases h

omit [Carrier] in
/-- Where fs is not projected, neither region withholds anything. -/
theorem regions_eq_none (hformed : ∀ l ∈ grants.layers, l.Formed) (h : regions grants baseline = none) (s : Subject) :
    (∀ r ∈ runningRegion grants baseline, (r.evidence s).permits = true) ∧
      ∀ r ∈ region grants .write baseline, (r.evidence s).permits = true := by
  have hboth : (runningRegion grants baseline).isSome = (region grants .write baseline).isSome :=
    runningRegion_isSome hformed
  unfold regions at h
  cases hread : runningRegion grants baseline with
  | none =>
    cases hwrite : region grants .write baseline with
    | none => exact ⟨fun r hr => (nomatch hr), fun r hr => (nomatch hr)⟩
    | some write => simp [hread, hwrite] at hboth
  | some read =>
    cases hwrite : region grants .write baseline with
    | none => simp [hread, hwrite] at hboth
    | some write =>
      have htop : grants.fsIsTop = true := by simpa [hread, hwrite] using h
      obtain ⟨f, hf, rfl⟩ := Option.map_eq_some_iff.mp hread
      obtain ⟨g, hg, rfl⟩ := Option.map_eq_some_iff.mp hwrite
      simp only [Option.mem_def, Option.some.injEq, forall_eq']
      exact ⟨(fold_top hformed htop hf s).2, (fold_top hformed htop hg s).1⟩

omit [Carrier] in
theorem table_eq (hadmitted : AdmittedBy grants baseline admitted) :
    table grants admitted = (rules grants).filter fun _ => !grants.execIsTop := by
  cases admitted with
  | none => rfl
  | some a =>
    obtain ⟨program, ha⟩ := hadmitted a rfl
    rw [table, rules_of_admitted ha]

omit [Carrier] in
/-- Where exec is not projected, the guard's table permits everything. -/
theorem table_eq_none (hformed : ∀ l ∈ grants.layers, l.Formed)
    (hadmitted : AdmittedBy grants baseline admitted)
    (h : table grants admitted = none) (s : ExecSubject) : ∀ r ∈ rules grants, (r.evidence s).permits = true := by
  intro r hr
  rw [table_eq hadmitted, Option.mem_def.mp hr] at h
  exact rules_top hformed (by simpa using h) hr s

theorem of_eq_some {p : SandboxProjection} (hp : of grants baseline admitted = some p) :
    p.fs = fsOf (regions grants baseline) (support grants baseline admitted) ∧
      p.exec = execOf (table grants admitted) (support grants baseline admitted) := by
  unfold of at hp
  dsimp only at hp
  split at hp
  · cases hp
  · cases hp
    exact ⟨rfl, rfl⟩

theorem admits_read (hformed : ∀ l ∈ grants.layers, l.Formed) {p : SandboxProjection}
    (hp : of grants baseline admitted = some p) (s : Subject) : p.fs.admits .read s ↔
      (∀ r ∈ runningRegion grants baseline, (r.evidence s).permits = true) ∨
      (∃ f ∈ support grants baseline admitted, s.beneath f = true) ∧
        ∀ r ∈ runningRegion grants baseline, r.excludes s = false := by
  rw [(of_eq_some hp).1]
  cases hregions : regions grants baseline with
  | none => exact ⟨fun _ => .inl (regions_eq_none hformed hregions s).1, fun _ => trivial⟩
  | some both =>
    obtain ⟨read, write⟩ := both
    have hread := (regions_eq_some hregions).1
    refine (live_permits rfl).trans (Table.permits_join_allows.trans ?_)
    simp only [hread, Option.mem_def, Option.some.injEq, forall_eq']
    refine or_congr_right (and_congr_left fun _ => ?_)
    constructor
    · rintro ⟨a, ha, hs⟩
      obtain ⟨f, hf, rfl⟩ := Finset.mem_image.mp ha
      exact ⟨f, hf, hs⟩
    · rintro ⟨f, hf, hs⟩
      exact ⟨_, Finset.mem_image_of_mem _ hf, hs⟩

theorem admits_write (hformed : ∀ l ∈ grants.layers, l.Formed) {p : SandboxProjection}
    (hp : of grants baseline admitted = some p) (s : Subject) : p.fs.admits .write s ↔
      ∀ r ∈ region grants .write baseline, (r.evidence s).permits = true := by
  rw [(of_eq_some hp).1]
  cases hregions : regions grants baseline with
  | none => exact ⟨fun _ => (regions_eq_none hformed hregions s).2, fun _ => trivial⟩
  | some both =>
    obtain ⟨read, write⟩ := both
    obtain ⟨hread, hwrite⟩ := regions_eq_some hregions
    simp only [hwrite, Option.mem_def, Option.some.injEq, forall_eq']
    refine live_permits ?_
    rw [← region_denies hformed hread hwrite]
    exact (Finset.union_empty _).symm

theorem permits_exec (hformed : ∀ l ∈ grants.layers, l.Formed)
    (hadmitted : AdmittedBy grants baseline admitted) {p : SandboxProjection}
    (hp : of grants baseline admitted = some p) (s : Subject) : p.exec.permits (.program s) ↔
      (∀ r ∈ rules grants, (r.evidence (.program s)).permits = true) ∨
      (∃ f ∈ support grants baseline admitted, atFile s f = true) ∧
        ∀ r ∈ rules grants, r.excludes (.program s) = false := by
  rw [(of_eq_some hp).2]
  cases htable : table grants admitted with
  | none => exact ⟨fun _ => .inl (table_eq_none hformed hadmitted htable _), fun _ => trivial⟩
  | some t =>
    have hrules : rules grants = some t := by
      rw [table_eq hadmitted] at htable
      exact (Option.filter_eq_some_iff.mp htable).1
    simp only [hrules, Option.mem_def, Option.some.injEq, forall_eq']
    exact permits_forKernel

omit [Carrier] in
theorem excluded_access (depth : Depth) {e : Excluded} {t : Trace}
    (h : (e.matched (.position t.real) depth).isSome = true) : (e.matched (.access t) depth).isSome = true := by
  rw [Excluded.matched_isSome] at h ⊢
  obtain ⟨hold, hmem, hmatched⟩ := h
  refine ⟨hold, hmem, ?_⟩
  rw [Hold.matched_isSome] at hmatched ⊢
  obtain ⟨position, hposition, hname | ⟨access, haccess, -⟩⟩ := hmatched
  · exact ⟨position, hposition, .inl hname⟩
  · cases haccess

omit [Carrier] in
theorem fs_excludes_access {r : FsRules} {t : Trace} (h : r.excludes (.position t.real) = true) :
    r.excludes (.access t) = true := by
  obtain ⟨d, hd, hmatched⟩ := Table.excludes_iff.mp h
  exact Table.excludes_iff.mpr ⟨d, hd, excluded_access .within hmatched⟩

omit [Carrier] in
theorem exec_excludes_access {r : ExecRules} {t : Trace} (h : r.excludes (.program (.position t.real)) = true) :
    r.excludes (.program (.access t)) = true := by
  obtain ⟨d, hd, hmatched⟩ := Table.excludes_iff.mp h
  refine Table.excludes_iff.mpr ⟨d, hd, ?_⟩
  cases d with
  | dir path => exact excluded_access .within hmatched
  | file path => exact excluded_access .exact hmatched
  | name key => exact hmatched

/-- Support is a regular file that no exclusion of either axis covers, as the walk held it or by its position. -/
theorem support_spared (hformed : ∀ l ∈ grants.layers, l.Formed)
    (hadmitted : AdmittedBy grants baseline admitted) {f : RealPath}
    (hf : f ∈ support grants baseline admitted) : ∃ t : Trace, t.real = f ∧ t.kind = some .file ∧
      ∀ s, s = .access t ∨ s = .position f → (∀ r ∈ rules grants, r.excludes (.program s) = false) ∧
        ∀ r ∈ runningRegion grants baseline, r.excludes s = false := by
  obtain ⟨t, rfl, hfile, hspared⟩ := liveSupport_spared hf
  rw [Bool.or_eq_false_iff] at hspared
  have hexec : ∀ r ∈ rules grants, r.excludes (.program (.access t)) = false := by
    intro r hr
    cases htable : table grants admitted with
    | none => exact (Table.evidence_permits.mp (table_eq_none hformed hadmitted htable _ r hr)).2
    | some r' =>
      rw [htable] at hspared
      rw [table_eq hadmitted, Option.mem_def.mp hr] at htable
      obtain rfl : r = r' := Option.some.inj (Option.filter_eq_some_iff.mp htable).1
      exact hspared.1
  have hfs : ∀ r ∈ runningRegion grants baseline, r.excludes (.access t) = false := by
    intro r hr
    cases hregions : regions grants baseline with
    | none => exact (Table.evidence_permits.mp ((regions_eq_none hformed hregions _).1 r hr)).2
    | some both =>
      rw [hregions] at hspared
      have hread := (regions_eq_some hregions).1
      obtain rfl : r = both.1 := Option.some.inj (hr.symm.trans hread)
      exact hspared.2
  refine ⟨t, rfl, hfile, ?_⟩
  rintro s (rfl | rfl)
  · exact ⟨hexec, hfs⟩
  · simp only [← Bool.not_eq_true] at hexec hfs ⊢
    exact ⟨fun r hr h => hexec r hr (exec_excludes_access h), fun r hr h => hfs r hr (fs_excludes_access h)⟩

omit [Carrier] in
/-- No axis of the stack is one the host would render. -/
structure Free (grants : GrantStack) (baseline : Baseline) : Prop where
  fs : regions grants baseline = none
  net : grants.netVeto = none
  gpu : withholdsGpu = true → Gpu.withheld ∉ grants.gpu
  exec : execEnforced = true → rules grants = none ∨ grants.execIsTop = true

theorem of_eq_none_iff (hadmitted : AdmittedBy grants baseline admitted) :
    of grants baseline admitted = none ↔ Free grants baseline := by
  have htable : table grants admitted = none ↔ rules grants = none ∨ grants.execIsTop = true := by
    rw [table_eq hadmitted]
    cases rules grants <;> simp
  unfold of
  dsimp only
  split
  · next htop =>
    simp only [Bool.and_eq_true, Option.isNone_iff_eq_none, Bool.not_eq_true', Bool.and_eq_false_iff,
      decide_eq_false_iff_not, Option.isSome_eq_false_iff, htable] at htop
    obtain ⟨⟨⟨hregions, hnet⟩, hgpu⟩, hexec⟩ := htop
    refine iff_of_true rfl ⟨hregions, hnet, ?_, ?_⟩
    · intro hwithholds
      exact hgpu.resolve_left (by simp [hwithholds])
    · intro henforced
      exact hexec.resolve_left (by simp [henforced])
  · next htop =>
    refine iff_of_false (by simp) fun hfree => htop ?_
    have hgpu : (withholdsGpu && decide (Gpu.withheld ∈ grants.gpu)) = false := by
      cases hwithholds : withholdsGpu with
      | false => rfl
      | true => simp [hfree.gpu hwithholds]
    have hexec : (execEnforced && (table grants admitted).isSome) = false := by
      cases henforced : execEnforced with
      | false => rfl
      | true => simp [htable.mpr (hfree.exec henforced)]
    simp [hfree.fs, hfree.net, hgpu, hexec]

/-- The kernel's rules are the guard's verdict and the support; nothing is projected only where no axis the host
renders withholds anything. -/
theorem projection_exact (hformed : ∀ l ∈ grants.layers, l.Formed)
    (hadmitted : AdmittedBy grants baseline admitted) :
    (∀ p, of grants baseline admitted = some p → ∀ s : Subject,
      (p.fs.admits .read s ↔ (∀ r ∈ runningRegion grants baseline, (r.evidence s).permits = true) ∨
        (∃ f ∈ support grants baseline admitted, s.beneath f = true) ∧
          ∀ r ∈ runningRegion grants baseline, r.excludes s = false) ∧
      (p.fs.admits .write s ↔ ∀ r ∈ region grants .write baseline, (r.evidence s).permits = true) ∧
      (p.exec.permits (.program s) ↔ (∀ r ∈ rules grants, (r.evidence (.program s)).permits = true) ∨
        (∃ f ∈ support grants baseline admitted, atFile s f = true) ∧
          ∀ r ∈ rules grants, r.excludes (.program s) = false)) ∧
    (∀ f ∈ support grants baseline admitted, ∃ t : Trace, t.real = f ∧ t.kind = some .file ∧
      ∀ s, s = .access t ∨ s = .position f → (∀ r ∈ rules grants, r.excludes (.program s) = false) ∧
        ∀ r ∈ runningRegion grants baseline, r.excludes s = false) ∧
    (of grants baseline admitted = none →
      (∀ s : Subject, (∀ r ∈ runningRegion grants baseline, (r.evidence s).permits = true) ∧
        ∀ r ∈ region grants .write baseline, (r.evidence s).permits = true) ∧
      grants.netVeto = none ∧ (withholdsGpu = true → Gpu.withheld ∉ grants.gpu) ∧
      (execEnforced = true → ∀ s, ∀ r ∈ rules grants, (r.evidence s).permits = true)) := by
  refine ⟨fun p hp s => ⟨admits_read hformed hp s, admits_write hformed hp s, permits_exec hformed hadmitted hp s⟩,
    fun f hf => support_spared hformed hadmitted hf, fun hnone => ?_⟩
  have hfree := (of_eq_none_iff hadmitted).mp hnone
  refine ⟨regions_eq_none hformed hfree.fs, hfree.net, hfree.gpu, fun henforced s r hr => ?_⟩
  rcases hfree.exec henforced with hrules | htop
  · rw [hrules] at hr
    cases hr
  · exact rules_top hformed htop hr s

/-! ## Under nested grants -/

section Nested
omit [Carrier]

omit [Host] in
theorem layers_foldl_push (layers : List GrantLayer) :
    (layers.foldl GrantStack.push grants).layers = grants.layers ++ layers := by
  induction layers generalizing grants with
  | nil => simp
  | cons layer layers ih => rw [List.foldl_cons, ih, GrantStack.push, List.append_assoc, List.singleton_append]

omit [Host] in
theorem permits_of_below {A D S : Type} [Allows A S] [Denies D S] {t u : Option (Table A D)} (h : Table.BelowOpt t u)
    {s : S} (ht : ∀ r ∈ t, (r.evidence s).permits = true) : ∀ r ∈ u, (r.evidence s).permits = true := by
  intro r hr
  obtain ⟨r', hr', hbelow⟩ := h r hr
  exact hbelow.permits (ht r' hr')

theorem runningRegion_push_below (layer : GrantLayer) :
    Table.BelowOpt (runningRegion (grants.push layer) baseline) (runningRegion grants baseline) := by
  intro r hr
  obtain ⟨g, hg, rfl⟩ := Option.map_eq_some_iff.mp hr
  obtain ⟨f, hf, hbelow⟩ := fold_push_below grants layer .read baseline g hg
  exact ⟨f.placed, Option.map_eq_some_iff.mpr ⟨f, hf, rfl⟩, hbelow.2⟩

theorem Free.of_push {layer : GrantLayer} (h : Free (grants.push layer) baseline) : Free grants baseline := by
  constructor
  · cases hregions : regions grants baseline with
    | none => rfl
    | some both =>
      obtain ⟨hread, hwrite⟩ := regions_eq_some hregions
      obtain ⟨read, hread', -⟩ := runningRegion_push_below layer both.1 hread
      obtain ⟨write, hwrite', -⟩ := region_push_below grants layer .write baseline both.2 hwrite
      have htop : (grants.push layer).fsIsTop = true := by
        simpa [regions, Option.mem_def.mp hread', Option.mem_def.mp hwrite'] using h.fs
      have htop' : grants.fsIsTop = true := by
        rw [GrantStack.fsIsTop, GrantStack.push, List.filterMap_append, List.all_append, Bool.and_eq_true] at htop
        exact htop.1
      simp [regions, hread, hwrite, htop'] at hregions
  · have hnet := h.net
    rw [GrantStack.netVeto, GrantStack.net, GrantStack.push, List.filterMap_append, List.head?_eq_none_iff,
      List.append_eq_nil_iff] at hnet
    rw [GrantStack.netVeto, GrantStack.net, hnet.1]
    rfl
  · intro hwithholds hmem
    refine h.gpu hwithholds ?_
    rw [GrantStack.gpu, GrantStack.push, List.filterMap_append]
    exact List.mem_append_left _ hmem
  · intro henforced
    rcases h.exec henforced with hnone | htop
    · cases hrules : rules grants with
      | none => exact .inl rfl
      | some r =>
        obtain ⟨r', hr', -⟩ := rules_push_below grants layer r hrules
        rw [hnone] at hr'
        cases hr'
    · rw [GrantStack.execIsTop, GrantStack.exec, GrantStack.push, List.filterMap_append, List.all_append,
        Bool.and_eq_true] at htop
      exact .inr htop.1

theorem Free.of_foldl_push {layers : List GrantLayer} (h : Free (layers.foldl GrantStack.push grants) baseline) :
    Free grants baseline := by
  induction layers generalizing grants with
  | nil => exact h
  | cons layer layers ih => exact (ih h).of_push

/-- What nested grants leave permitted was permitted, on each axis by itself. -/
theorem guard_foldl_push (layers : List GrantLayer) (s : Subject) :
    ((∀ r ∈ runningRegion (layers.foldl GrantStack.push grants) baseline, (r.evidence s).permits = true) →
      ∀ r ∈ runningRegion grants baseline, (r.evidence s).permits = true) ∧
    ((∀ r ∈ region (layers.foldl GrantStack.push grants) .write baseline, (r.evidence s).permits = true) →
      ∀ r ∈ region grants .write baseline, (r.evidence s).permits = true) ∧
    ((∀ r ∈ rules (layers.foldl GrantStack.push grants), (r.evidence (.program s)).permits = true) →
      ∀ r ∈ rules grants, (r.evidence (.program s)).permits = true) := by
  induction layers generalizing grants with
  | nil => exact ⟨id, id, id⟩
  | cons layer layers ih =>
    obtain ⟨hread, hwrite, hexec⟩ := @ih (grants.push layer)
    exact ⟨fun h => permits_of_below (runningRegion_push_below layer) (hread h),
      fun h => permits_of_below (region_push_below grants layer .write baseline) (hwrite h),
      fun h => permits_of_below (rules_push_below grants layer) (hexec h)⟩

end Nested

/-- The kernel is handed rules under every nested grant, and they admit nothing the enclosing ones do not but
support. -/
theorem projection_only_shrinks (layers : List GrantLayer)
    (hformed : ∀ l ∈ (layers.foldl GrantStack.push grants).layers, l.Formed) {inner : Option Admitted}
    (hadmitted : AdmittedBy grants baseline admitted)
    (hinner : AdmittedBy (layers.foldl GrantStack.push grants) baseline inner)
    {p : SandboxProjection} (hp : of grants baseline admitted = some p) :
    ∃ q, of (layers.foldl GrantStack.push grants) baseline inner = some q ∧ ∀ s : Subject,
      (q.fs.admits .write s → p.fs.admits .write s) ∧
      (q.fs.admits .read s → p.fs.admits .read s ∨
        ∃ f ∈ support (layers.foldl GrantStack.push grants) baseline inner, s.beneath f = true) ∧
      (q.exec.permits (.program s) → p.exec.permits (.program s) ∨
        ∃ f ∈ support (layers.foldl GrantStack.push grants) baseline inner, atFile s f = true) := by
  have houter : ∀ l ∈ grants.layers, l.Formed := by
    intro l hl
    refine hformed l ?_
    rw [layers_foldl_push]
    exact List.mem_append_left _ hl
  cases hq : of (layers.foldl GrantStack.push grants) baseline inner with
  | none =>
    have hfree := (of_eq_none_iff hadmitted).mpr ((of_eq_none_iff hinner).mp hq).of_foldl_push
    rw [hp] at hfree
    cases hfree
  | some q =>
    refine ⟨q, rfl, fun s => ?_⟩
    obtain ⟨hread, hwrite, hexec⟩ := @guard_foldl_push _ grants baseline layers s
    rw [admits_write hformed hq, admits_write houter hp, admits_read hformed hq, admits_read houter hp,
      permits_exec hformed hinner hq, permits_exec houter hadmitted hp]
    exact ⟨hwrite, Or.imp (fun h => .inl (hread h)) And.left, Or.imp (fun h => .inl (hexec h)) And.left⟩

/-- A launch the guard admits is one the kernel lets run and read. -/
theorem projection_admits_launch (hformed : ∀ l ∈ grants.layers, l.Formed) {arg0 : String} {located : Trace} {a : Admitted}
    (ha : grants.admitProgram baseline (.file arg0 located) = .ok a) {p : SandboxProjection}
    (hp : of grants baseline (some a) = some p) :
    p.exec.permits (.program (.access located)) ∧ p.fs.admits .read (.access located) := by
  obtain ⟨hrun, hread⟩ := admit_isOk_iff.mp (show (grants.admitProgram baseline (.file arg0 located)).isOk = true by
    rw [ha]
    rfl)
  have hadmitted : AdmittedBy grants baseline (some a) := by
    intro b hb
    cases hb
    exact ⟨_, ha⟩
  rw [permits_exec hformed hadmitted hp, admits_read hformed hp]
  constructor
  · left
    intro r hr
    rw [runWithheld, Option.mem_def.mp hr, Option.bind_some] at hrun
    rw [← Table.withheld_eq_none]
    cases hwhy : r.withheld (.program (.access located)) with
    | none => rfl
    | some why => simp [Program.subject, hwhy] at hrun
  · left
    intro r hr
    obtain ⟨f, hf, rfl⟩ := Option.map_eq_some_iff.mp hr
    have hplaced : (grants.readRegion baseline).withheld (.access located) = .ok () := hread
    rw [GrantStack.readRegion, hf, withheld_of_extends (fold_extends hf)] at hplaced
    rw [← Table.withheld_eq_none]
    cases hwhy : f.placed.withheld (.access located) with
    | none => rfl
    | some why => simp [hwhy] at hplaced

end SandboxProjection

/-! ## A linker beside a written directory -/

def linker : RealPath := ⟨[], [Name.ofStr "lib", Name.ofStr "ld.so"]⟩

def linkerTrace : Trace :=
  ⟨[], ⟨0, 0⟩, [⟨Name.ofStr "lib", ⟨0, 1⟩, .dir⟩, ⟨Name.ofStr "ld.so", ⟨0, 2⟩, .file⟩], [], [], by decide⟩

def binGrants : GrantStack := writingBin (.dir ⟨"/bin", .under bin []⟩)

theorem binGrants_formed : ∀ l ∈ binGrants.layers, @GrantLayer.Formed folding l := writingBin_formed _

/-- One linker, and no interpreter. -/
@[reducible] def oneLinker : Carrier where
  Spelling := RealPath
  spell := id
  frozen _ := "/lib/ld.so"
  walk p := if p = linker then some linkerTrace else none
  systemWalk p := if p = linker then some linkerTrace else none
  hops _ := []
  linkerNames := [linker]

/-- A place is read with all beneath it, though it is a file. -/
theorem support_read_beneath : ∃ p s,
    @SandboxProjection.of folding oneLinker binGrants noBaseline none = some p ∧
      @FsProjection.admits folding p.fs .read s ∧
      (∀ f ∈ @SandboxProjection.support folding oneLinker binGrants noBaseline none,
        @atFile folding s f = false) ∧
      ∃ r, @runningRegion folding binGrants noBaseline = some r ∧
        (@Table.evidence _ _ _ (@instAllowsFsAllowSubject folding) (@instDeniesFsDenySubject folding) r s).permits =
          false := by
  let _ : Host := folding
  let _ : Carrier := oneLinker
  have hsome : (SandboxProjection.of binGrants noBaseline none).isSome = true := by decide
  obtain ⟨p, hp⟩ := Option.isSome_iff_exists.mp hsome
  refine ⟨p, .position (linker.child (Name.ofStr "x")), hp, ?_, by decide, _, rfl, by decide⟩
  refine (SandboxProjection.admits_read binGrants_formed hp _).mpr (.inr ⟨⟨linker, by decide, by decide⟩, ?_⟩)
  intro r hr
  cases hr
  decide

def binToolTrace : Trace :=
  ⟨[], ⟨0, 0⟩, [⟨Name.ofStr "bin", ⟨0, 3⟩, .dir⟩, ⟨Name.ofStr "tool", ⟨0, 4⟩, .file⟩], [], [], by decide⟩

theorem projection_exact_bin : ∃ p a,
    @GrantStack.admitProgram folding binGrants noBaseline (.file "tool" binToolTrace) = .ok a ∧
    @SandboxProjection.of folding oneLinker binGrants noBaseline (some a) = some p ∧
      @FsProjection.admits folding p.fs .write (.access binToolTrace) := by
  let _ : Host := folding
  let _ : Carrier := oneLinker
  obtain ⟨a, ha⟩ : ∃ a, GrantStack.admitProgram binGrants noBaseline (.file "tool" binToolTrace) = .ok a := ⟨_, rfl⟩
  have hexact := @SandboxProjection.projection_exact folding oneLinker binGrants noBaseline (some a)
    binGrants_formed (by rintro _ ⟨rfl⟩; exact ⟨_, ha⟩)
  cases hof : SandboxProjection.of binGrants noBaseline (some a) with
  | none =>
    have hall := ((hexact.2.2 hof).1 (.position linker)).2 _ rfl
    exact absurd hall (by decide)
  | some p =>
    refine ⟨p, a, ha, hof, ((hexact.1 p hof (.access binToolTrace)).2.1).mpr ?_⟩
    intro r hr
    cases hr
    decide

theorem projection_admits_launch_bin :
    ∃ p, (∃ a, @GrantStack.admitProgram folding binGrants noBaseline (.file "tool" binToolTrace) = .ok a ∧
      @SandboxProjection.of folding oneLinker binGrants noBaseline (some a) = some p) ∧
    @ExecProjection.permits folding p.exec (.program (.access binToolTrace)) ∧
      @FsProjection.admits folding p.fs .read (.access binToolTrace) := by
  let _ : Host := folding
  let _ : Carrier := oneLinker
  obtain ⟨a, ha⟩ : ∃ a, GrantStack.admitProgram binGrants noBaseline (.file "tool" binToolTrace) = .ok a := ⟨_, rfl⟩
  cases hof : SandboxProjection.of binGrants noBaseline (some a) with
  | none =>
    have hfree := (SandboxProjection.of_eq_none_iff (by rintro _ ⟨rfl⟩; exact ⟨_, ha⟩)).mp hof
    exact absurd (hfree.exec (by decide)) (by decide)
  | some p => exact ⟨p, ⟨a, ha, hof⟩, SandboxProjection.projection_admits_launch binGrants_formed ha hof⟩

/-- Under a grant that writes nothing the tool is no longer written. -/
theorem projection_only_shrinks_bin : ∃ p, @SandboxProjection.of folding oneLinker binGrants noBaseline none = some p ∧
    ∃ q, @SandboxProjection.of folding oneLinker (binGrants.push
        { GrantLayer.root with fs := some (FsLayer.new [] [] []) }) noBaseline none = some q ∧
      (@FsProjection.admits folding q.fs .write (.position binTool) →
        @FsProjection.admits folding p.fs .write (.position binTool)) := by
  let _ : Host := folding
  let _ : Carrier := oneLinker
  obtain ⟨p, hp⟩ := Option.isSome_iff_exists.mp (show (SandboxProjection.of binGrants noBaseline none).isSome = true by decide)
  obtain ⟨q, hq, hshrinks⟩ := @SandboxProjection.projection_only_shrinks folding oneLinker binGrants noBaseline none
    [{ GrantLayer.root with fs := some (FsLayer.new [] [] []) }] (by
      intro l hl
      rcases List.mem_append.mp hl with hl | hl
      · exact binGrants_formed l hl
      · obtain rfl := List.mem_singleton.mp hl
        refine ⟨?_, fun r hr => (nomatch hr)⟩
        rintro fs ⟨rfl⟩
        exact FsLayer.formed_new _ _ _) none (fun a ha => (nomatch ha)) (fun a ha => (nomatch ha)) p hp
  exact ⟨p, hp, q, hq, (hshrinks _).1⟩

end Ral.Authority
