import Mathlib.Data.String.Basic
import Mathlib.Data.Sum.Order
import Ral.Authority.Table

/-! # The scopes of the filesystem and the exec tables

An allowance is positional: everywhere, beneath a position, or at one position.
An exclusion is the pair of holds its walk made, read within or exactly. Both
instances of the table meet the obligations of `LawfulAllows`, so meet and join
act pointwise on the evidence of either.
-/

namespace Ral.Authority
open Ral.Path

/-! ## Grant paths -/

/-- Where an allowance holds, with what the walk to its position passed. -/
inductive Extent
  | everywhere
  | under (position : RealPath) (passed : List RealPath)
deriving DecidableEq

/-- A grant spelling in force: as written, and what the walk made of it. -/
structure GrantPath (R : Type) where
  written : String
  real : R
deriving DecidableEq

instance {R : Type} [LinearOrder R] : LinearOrder (GrantPath R) :=
  LinearOrder.lift' (fun g => toLex (g.written, g.real)) fun a b h => by
    cases a; cases b; simpa using h

def GrantPath.everywhere : GrantPath Extent := ⟨"/", .everywhere⟩

namespace Extent

variable [Host]

def contains : Extent → Subject → Bool
  | .everywhere, _ => true
  | .under position _, subject => subject.beneath position

def own : Extent → Subject
  | .everywhere => .everywhere
  | .under position _ => .position position

theorem beneath_iff {s : Subject} {position : RealPath} :
    s.beneath position = true ↔ ∃ q, s.position? = some q ∧ position.contains q = true := by
  cases h : s.position? <;> simp [Subject.beneath, h]

@[simp] theorem contains_own (e : Extent) : e.contains e.own = true := by
  cases e <;> simp [contains, own, Subject.beneath, Subject.position?]

theorem nested {e f : Extent} {s : Subject} (he : e.contains s = true)
    (hf : f.contains s = true) : e.contains f.own = true ∨ f.contains e.own = true := by
  cases e with
  | everywhere => exact .inl rfl
  | under p _ =>
    cases f with
    | everywhere => exact .inr rfl
    | under q _ =>
      obtain ⟨r, hr, hpr⟩ := beneath_iff.mp he
      obtain ⟨r', hr', hqr⟩ := beneath_iff.mp hf
      obtain rfl : r = r' := by simpa [hr] using hr'
      exact RealPath.contains_nested hpr hqr

theorem own_detects {e f : Extent} {s : Subject} (he : e.contains f.own = true)
    (hf : f.contains s = true) : e.contains s = true := by
  cases e with
  | everywhere => rfl
  | under p _ =>
    cases f with
    | everywhere => simp [contains, own, Subject.beneath, Subject.position?] at he
    | under q _ =>
      have hpq : p.contains q = true := he
      obtain ⟨r, hr, hqr⟩ := beneath_iff.mp hf
      exact beneath_iff.mpr ⟨r, hr, RealPath.contains_trans hpq hqr⟩

end Extent

/-! ## The filesystem scopes -/

/-- A prefix as the author wrote it and resolved, or a place exec runs. -/
inductive FsAllow
  | under (path : GrantPath Extent)
  | runPlace (place : RealPath)
deriving DecidableEq

structure FsDeny where
  path : GrantPath Excluded
deriving DecidableEq

instance : LinearOrder FsDeny :=
  LinearOrder.lift' FsDeny.path fun a b h => by cases a; cases b; simpa using h

def FsAllow.extent : FsAllow → Extent
  | .under path => path.real
  | .runPlace place => .under place []

abbrev FsRules := Table FsAllow FsDeny

def FsRules.top : FsRules := ⟨{.under .everywhere}, ∅⟩

section Fs
variable [Host]

instance : Allows FsAllow Subject where
  contains
    | .under path, s => path.real.contains s
    | .runPlace place, s => s.beneath place
  own
    | .under path => path.real.own
    | .runPlace place => .position place

instance : Denies FsDeny Subject where
  matched d s := d.path.real.matched s .within

theorem FsAllow.contains_eq (a : FsAllow) (s : Subject) :
    Allows.contains a s = a.extent.contains s := by
  cases a <;> rfl

theorem FsAllow.own_eq (a : FsAllow) : Allows.own a = a.extent.own := by
  cases a <;> rfl

instance : LawfulAllows FsAllow where
  contains_own a := by rw [a.contains_eq, a.own_eq, Extent.contains_own]
  nested a k s ha hk := by
    rw [FsAllow.contains_eq] at *
    rw [FsAllow.contains_eq, FsAllow.own_eq, FsAllow.own_eq]
    exact Extent.nested ha hk
  own_detects a k s ha hk := by
    rw [FsAllow.contains_eq, FsAllow.own_eq] at ha
    rw [FsAllow.contains_eq] at *
    exact Extent.own_detects ha hk

theorem FsRules.evidence_top (s : Subject) : FsRules.top.evidence s = .allow := by
  simp [Table.evidence, Table.supports, Table.excludes, FsRules.top, Evidence.allow,
    Allows.contains, GrantPath.everywhere, Extent.contains]

end Fs

/-! ## The exec scopes -/

/-- What a grant judges, and what a rule is itself judged at. -/
inductive ExecSubject
  | program (place : Subject)
  | dir (place : Subject)
  | tool (name : String)
  | any

/-- What an exec allowance admits. `foundAs` is provenance, never consulted. -/
inductive ExecAllow
  | any
  | dir (path : GrantPath Extent)
  | file (written : String) (real : RealPath) (foundAs : Option String)
  | tool (name : String)
deriving DecidableEq

/-- What an exec exclusion refuses: a bare name everywhere, a directory, a file. -/
inductive ExecDeny
  | name (key : String)
  | dir (path : GrantPath Excluded)
  | file (path : GrantPath Excluded)
deriving DecidableEq

def ExecDeny.key : ExecDeny → String ⊕ₗ GrantPath Excluded ⊕ₗ GrantPath Excluded
  | .name key => toLex (.inl key)
  | .dir path => toLex (.inr (toLex (.inl path)))
  | .file path => toLex (.inr (toLex (.inr path)))

instance : LinearOrder ExecDeny :=
  LinearOrder.lift' ExecDeny.key fun a b h => by
    cases a <;> cases b <;> simp_all [ExecDeny.key]

abbrev ExecRules := Table ExecAllow ExecDeny

def ExecRules.top : ExecRules := ⟨{.any}, ∅⟩

section Exec
variable [Host]

def vetoes (key name : String) : Option MatchedBy :=
  if key = commandNameKey name then some .name else none

instance : Allows ExecAllow ExecSubject where
  contains
    | .any, _ => true
    | .dir path, .program s => path.real.contains s
    | .dir path, .dir s => path.real.contains s
    | .file _ real _, .program s => s.position?.any fun q => real.contains q && q.contains real
    | .tool tool, .tool name => tool = name
    | _, _ => false
  own
    | .any => .any
    | .dir path => .dir path.real.own
    | .file _ real _ => .program (.position real)
    | .tool name => .tool name

instance : Denies ExecDeny ExecSubject where
  matched
    | .dir path, .program s => path.real.matched s .within
    | .dir path, .dir s => path.real.matched s .within
    | .file path, .program s => path.real.matched s .exact
    | .name key, .tool name => vetoes key name
    | .name key, .program s => do
        let position ← s.position?
        let name ← position.name
        vetoes key name
    | _, _ => none

namespace ExecAllow

def placeOf : ExecSubject → Option Subject
  | .program place | .dir place => some place
  | .tool _ | .any => none

theorem contains_any (s : ExecSubject) : Allows.contains any s = true := rfl

theorem contains_dir_iff {path : GrantPath Extent} {s : ExecSubject} :
    Allows.contains (dir path) s = true ↔ ∃ p, placeOf s = some p ∧ path.real.contains p = true := by
  cases s <;> simp [Allows.contains, placeOf]

theorem contains_file_iff {written : String} {real : RealPath} {foundAs : Option String}
    {s : ExecSubject} : Allows.contains (file written real foundAs) s = true ↔
      ∃ p q, s = .program p ∧ p.position? = some q ∧
        real.contains q = true ∧ q.contains real = true := by
  cases s with
  | program p => cases h : p.position? <;> simp [Allows.contains, h]
  | dir _ => simp [Allows.contains]
  | tool _ => simp [Allows.contains]
  | any => simp [Allows.contains]

theorem contains_tool_iff {name : String} {s : ExecSubject} :
    Allows.contains (tool name) s = true ↔ s = .tool name := by
  cases s <;> simp [Allows.contains, eq_comm]

theorem extent_contains_position {e : Extent} {s : Subject} {q real : RealPath}
    (he : e.contains s = true) (hq : s.position? = some q) (hqr : q.contains real = true) :
    e.contains (.position real) = true := by
  cases e with
  | everywhere => rfl
  | under p _ =>
    obtain ⟨q', hq', hpq⟩ := Extent.beneath_iff.mp he
    obtain rfl : q = q' := by simpa [hq] using hq'
    exact RealPath.contains_trans hpq hqr

theorem contains_own (a : ExecAllow) : Allows.contains a (Allows.own a) = true := by
  cases a with
  | any => rfl
  | dir path => exact contains_dir_iff.mpr ⟨_, rfl, path.real.contains_own⟩
  | file written real foundAs =>
    exact contains_file_iff.mpr ⟨_, real, rfl, rfl, real.contains_refl, real.contains_refl⟩
  | tool name => exact contains_tool_iff.mpr rfl

theorem nested {a k : ExecAllow} {s : ExecSubject} (ha : Allows.contains a s = true)
    (hk : Allows.contains k s = true) :
    Allows.contains a (Allows.own k) = true ∨ Allows.contains k (Allows.own a) = true := by
  cases a with
  | any => exact .inl rfl
  | dir d =>
    obtain ⟨p, hp, hd⟩ := contains_dir_iff.mp ha
    cases k with
    | any => exact .inr rfl
    | dir e =>
      obtain ⟨p', hp', he⟩ := contains_dir_iff.mp hk
      obtain rfl : p = p' := by simpa [hp] using hp'
      exact Extent.nested hd he
    | file written real foundAs =>
      obtain ⟨p', q, rfl, hq, -, hqr⟩ := contains_file_iff.mp hk
      obtain rfl : p' = p := by simpa [placeOf] using hp
      exact .inl (extent_contains_position hd hq hqr)
    | tool name =>
      obtain rfl := contains_tool_iff.mp hk
      cases hp
  | file written real foundAs =>
    obtain ⟨p, q, rfl, hq, hrq, hqr⟩ := contains_file_iff.mp ha
    cases k with
    | any => exact .inr rfl
    | dir e =>
      obtain ⟨p', hp', he⟩ := contains_dir_iff.mp hk
      obtain rfl : p = p' := by simpa [placeOf] using hp'
      exact .inr (extent_contains_position he hq hqr)
    | file written' real' foundAs' =>
      obtain ⟨p', q', hp', hq', hrq', hqr'⟩ := contains_file_iff.mp hk
      obtain rfl : p = p' := by simpa using hp'
      obtain rfl : q = q' := by simpa [hq] using hq'
      exact .inl (contains_file_iff.mpr ⟨_, real', rfl, rfl,
        RealPath.contains_trans hrq hqr', RealPath.contains_trans hrq' hqr⟩)
    | tool name => cases contains_tool_iff.mp hk
  | tool name =>
    obtain rfl := contains_tool_iff.mp ha
    cases k with
    | any => exact .inr rfl
    | dir e =>
      obtain ⟨p, hp, -⟩ := contains_dir_iff.mp hk
      cases hp
    | file written real foundAs =>
      obtain ⟨p, q, hp, -⟩ := contains_file_iff.mp hk
      cases hp
    | tool name' => exact .inr hk

theorem own_detects {a k : ExecAllow} {s : ExecSubject}
    (ha : Allows.contains a (Allows.own k) = true) (hk : Allows.contains k s = true) :
    Allows.contains a s = true := by
  cases a with
  | any => rfl
  | dir d =>
    obtain ⟨p, hp, hd⟩ := contains_dir_iff.mp ha
    cases k with
    | any => cases hp
    | dir e =>
      obtain rfl : e.real.own = p := by simpa [placeOf, Allows.own] using hp
      obtain ⟨p, hp, he⟩ := contains_dir_iff.mp hk
      exact contains_dir_iff.mpr ⟨p, hp, Extent.own_detects hd he⟩
    | file written real foundAs =>
      obtain rfl : .position real = p := by simpa [placeOf, Allows.own] using hp
      obtain ⟨p, q, rfl, hq, hrq, -⟩ := contains_file_iff.mp hk
      refine contains_dir_iff.mpr ⟨p, rfl, Extent.own_detects (f := .under real []) hd ?_⟩
      exact Extent.beneath_iff.mpr ⟨q, hq, hrq⟩
    | tool name => cases hp
  | file written real foundAs =>
    obtain ⟨p, q, hp, hq, hrq, hqr⟩ := contains_file_iff.mp ha
    cases k with
    | any => cases hp
    | dir e => cases hp
    | file written' real' foundAs' =>
      obtain rfl : .position real' = p := by simpa [Allows.own] using hp
      obtain rfl : real' = q := by simpa [Subject.position?] using hq
      obtain ⟨p, q, rfl, hq, hrq', hqr'⟩ := contains_file_iff.mp hk
      exact contains_file_iff.mpr ⟨p, q, rfl, hq,
        RealPath.contains_trans hrq hrq', RealPath.contains_trans hqr' hqr⟩
    | tool name => cases hp
  | tool name =>
    have hown := contains_tool_iff.mp ha
    cases k with
    | any => cases hown
    | dir e => cases hown
    | file written real foundAs => cases hown
    | tool name' =>
      obtain rfl : name' = name := by simpa [Allows.own] using hown
      exact hk

end ExecAllow

instance : LawfulAllows ExecAllow where
  contains_own := ExecAllow.contains_own
  nested _ _ _ := ExecAllow.nested
  own_detects _ _ _ := ExecAllow.own_detects

theorem ExecRules.evidence_top (s : ExecSubject) : ExecRules.top.evidence s = .allow := by
  simp [Table.evidence, Table.supports, Table.excludes, ExecRules.top, Evidence.allow,
    Allows.contains]

end Exec

/-! ## Both instances keep the laws -/

theorem fs_and_exec_laws [Host] :
    Table.Laws FsAllow FsDeny FsRules.top ∧ Table.Laws ExecAllow ExecDeny ExecRules.top :=
  ⟨.of_obligations FsRules.evidence_top, .of_obligations ExecRules.evidence_top⟩

end Ral.Authority
