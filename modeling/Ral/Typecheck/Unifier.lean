import Mathlib.Data.Prod.Basic
import Ral.Core.Run
import Ral.Core.UnionFind
import Ral.Typecheck.Kind

/-! # The unifier's state

One union-find store for each sort of term and one for grades, the kinds of the
free type variables and the deep row variables. Unification binds a variable to a
structure and unites two variables; instantiation may bind a root to a bare
variable, which leaves it a root of its own beside the one it stands for.
-/

namespace Ral.Typecheck
open Ral.UnionFind

/-! ## Errors -/

structure Span where
  start : ℕ
  stop : ℕ
  file : ℕ
deriving DecidableEq

/-- The edge by which a refused binding would close on itself. -/
inductive CycleVia
  | applied
  | argument
  | returns
deriving DecidableEq

/-- What a kind mismatch found wanting. -/
inductive KindFound
  | type (t : Ty)
  | used (kind : Kind) (witness : Option Span)
deriving DecidableEq

inductive TypeErrorKind
  | recursiveRow
  | typeTooDeep
  | cyclicType (via : CycleVia)
  | tyMismatch (expected actual : Ty)
  | kindMismatch (found : KindFound) (kind : Kind) (witness : Option Span)
  | compTyMismatch (expected actual : CompTy)
  | rowExtraField (label : Label) (known : List String)
  | rowMissingField (label : String)
deriving DecidableEq

/-! ## Stores -/

/-- What made a variable weak. -/
inductive WeakSource
  | boundary (name : String)
  | host (name : String)
  | residual
deriving DecidableEq

/-- A sort with variables in a union-find store. -/
class Unifiable (T : Type) where
  asVar : T → Option ℕ
  fromRoot : ℕ → T
  asVar_fromRoot : ∀ v, asVar (fromRoot v) = some v
  fromRoot_of_asVar : ∀ {t v}, asVar t = some v → t = fromRoot v

instance (s : Srt) : Unifiable (Term s) where
  asVar := Term.asVar
  fromRoot := Term.var
  asVar_fromRoot := Term.asVar_var
  fromRoot_of_asVar := Term.eq_var_of_asVar

namespace Grade

def asVar : Grade → Option ℕ
  | var v => some v
  | _ => none

end Grade

instance : Unifiable Grade where
  asVar := Grade.asVar
  fromRoot := Grade.var
  asVar_fromRoot _ := rfl
  fromRoot_of_asVar {t v} h := by cases t <;> simp_all [Grade.asVar]

/-- What is not a bare variable. -/
@[ext] structure Struct (T : Type) [Unifiable T] where
  val : T
  headed : Unifiable.asVar val = none

section View
variable {T : Type} [Unifiable T]

/-- A variable, or what has a head. -/
def view (t : T) : ℕ ⊕ Struct T :=
  match h : Unifiable.asVar t with
  | some v => .inl v
  | none => .inr ⟨t, h⟩

theorem view_eq_inl {t : T} {v : ℕ} : view t = .inl v ↔ t = Unifiable.fromRoot v := by
  unfold view
  constructor
  · intro h
    split at h
    · next w hw =>
        cases h
        exact Unifiable.fromRoot_of_asVar hw
    · cases h
  · rintro rfl
    split
    · next w hw => rw [Option.some.inj ((Unifiable.asVar_fromRoot v).symm.trans hw)]
    · next hn => simp [Unifiable.asVar_fromRoot] at hn

theorem view_eq_inr {t : T} {b : Struct T} : view t = .inr b ↔ t = b.1 := by
  unfold view
  constructor
  · intro h
    split at h
    · cases h
    · cases h
      rfl
  · rintro rfl
    split
    · next w hw => simp [b.2] at hw
    · rfl

@[simp] theorem view_fromRoot (v : ℕ) : view (Unifiable.fromRoot v : T) = .inl v :=
  view_eq_inl.mpr rfl

@[simp] theorem view_struct (b : Struct T) : view b.1 = .inr b := view_eq_inr.mpr rfl

end View

@[simp] theorem view_var {s : Srt} (v : ℕ) : view (Term.var v : Term s) = .inl v :=
  view_eq_inl.mpr rfl

@[simp] theorem view_grade_var (v : ℕ) : view (Grade.var v) = .inl v := view_eq_inl.mpr rfl

structure Store (T : Type) [Unifiable T] where
  slots : Slots (Struct T)
  weak : ℕ → Option WeakSource

namespace Store
variable {T : Type} [Unifiable T]

def new : Store T := ⟨Slots.empty, fun _ => none⟩

def fresh (s : Store T) : ℕ × Store T := (s.slots.fresh.1, { s with slots := s.slots.fresh.2 })

def find (s : Store T) (v : ℕ) : ℕ × Store T :=
  ((s.slots.find v).1, { s with slots := (s.slots.find v).2 })

/-- `find` without path compression. -/
def root (s : Store T) (v : ℕ) : ℕ := s.slots.anchor v

def getRef (s : Store T) (v : ℕ) : Option T :=
  match s.slots.slot (s.root v) with
  | .bound b => some b.1
  | .bare w => some (Unifiable.fromRoot w)
  | .free | .parent _ => none

def bind (s : Store T) (v : ℕ) (val : Struct T) : Store T := { s with slots := s.slots.bind v val }

/-- Bind a root to any term. A bare variable that leads to the root itself, over
which `resolve` would not end, is never handed in. -/
def bindRoot (s : Store T) (root : ℕ) (value : T) : Store T :=
  match view value with
  | .inl w => { s with slots := s.slots.bindBare root w }
  | .inr val => s.bind root val

def orWeak (weak : ℕ → Option WeakSource) (root : ℕ) (source : WeakSource) :
    ℕ → Option WeakSource :=
  Function.update weak root (some ((weak root).getD source))

/-- Only free variables are united. -/
def unite (s : Store T) (a b : ℕ) : Store T :=
  if a = b then s
  else
    let (ar, s) := s.find a
    let (br, s) := s.find b
    if ar = br then s
    else
      { slots := s.slots.unite ar br
        weak := match s.weak ar with
          | some source => orWeak s.weak br source
          | none => s.weak }

theorem plain_unite (s : Store T) (h : s.slots.Plain) (a b : ℕ) : (s.unite a b).slots.Plain := by
  unfold unite
  split
  · exact h
  · dsimp only
    split
    · exact (h.find a).find b
    · exact ((h.find a).find b).unite _ _

def markWeak (s : Store T) (v : ℕ) (source : WeakSource) : Store T :=
  let (root, s) := s.find v
  { s with weak := orWeak s.weak root source }

def weakSource (s : Store T) (v : ℕ) : Option WeakSource := s.weak (s.root v)

/-- Canonical form at the head, at the end of the chain of bare variables. -/
def resolve (s : Store T) (x : T) : T :=
  match view x with
  | .inl v =>
    match s.slots.get v with
    | some b => b.1
    | none => Unifiable.fromRoot (s.slots.root v)
  | .inr _ => x

end Store

/-! ## The unifier -/

/-- The kind of a free type variable, and the span that narrowed it. -/
structure Kinded where
  kind : Kind
  witness : Option Span
deriving DecidableEq

abbrev OpenKind : Type := {k : Kind // k.pin = none}

structure Unifier where
  terms : (s : Srt) → Store (Term s)
  /-- Grades are atomic and never weak. -/
  grades : Store Grade
  /-- No grade is bound to another. -/
  gradesPlain : grades.slots.Plain
  /-- The kind of each free type-variable root, where not `any`. -/
  kinds : TyVar → Option (OpenKind × Option Span)
  deepRows : RowVar → Option (Option Span)
  boundAt : TyVar → Option Span
  spanAt : Option Span
  /-- Not of the source, and read by none of its functions: whether a variable was
  bound to what leads back to it without crossing data. -/
  overlooked : Prop

namespace Unifier

def new : Unifier where
  terms _ := Store.new
  grades := Store.new
  gradesPlain _ := rfl
  kinds _ := none
  deepRows _ := none
  boundAt _ := none
  spanAt := none
  overlooked := False

variable (u : Unifier)

def setTerms (s : Srt) (store : Store (Term s)) : Unifier :=
  { u with terms := Function.update u.terms s store }

@[simp] theorem setTerms_self (s : Srt) (store : Store (Term s)) :
    (u.setTerms s store).terms s = store := by simp [setTerms]

theorem setTerms_ne {s s' : Srt} (store : Store (Term s)) (h : s' ≠ s) :
    (u.setTerms s store).terms s' = u.terms s' := by simp [setTerms, h]

/-! ### Variables -/

def fresh (s : Srt) : ℕ × Unifier :=
  ((u.terms s).fresh.1, u.setTerms s (u.terms s).fresh.2)

def find (s : Srt) (v : ℕ) : ℕ × Unifier :=
  (((u.terms s).find v).1, u.setTerms s ((u.terms s).find v).2)

def root (s : Srt) (v : ℕ) : ℕ := (u.terms s).root v

def getRef (s : Srt) (v : ℕ) : Option (Term s) := (u.terms s).getRef v

/-- Canonicalize the head. -/
def resolve {s : Srt} (t : Term s) : Term s := (u.terms s).resolve t

def bindTerm (s : Srt) (v : ℕ) (val : Struct (Term s)) : Unifier :=
  u.setTerms s ((u.terms s).bind v val)

def overlook (p : Prop) : Unifier := { u with overlooked := u.overlooked ∨ p }

def uniteTerms (s : Srt) (a b : ℕ) : Unifier := u.setTerms s ((u.terms s).unite a b)

def markWeakVar (s : Srt) (v : ℕ) (source : WeakSource) : Unifier :=
  u.setTerms s ((u.terms s).markWeak v source)

def weakVar {s : Srt} (t : Term s) : Option WeakSource :=
  match view t with
  | .inl v => (u.terms s).weakSource v
  | .inr _ => none

/-! ### Grades -/

def freshGrade : ℕ × Unifier :=
  (u.grades.fresh.1, { u with grades := u.grades.fresh.2, gradesPlain := u.gradesPlain })

def resolveGrade (g : Grade) : Grade := u.grades.resolve g

def bindGrade (v : GradeVar) (g : Struct Grade) : Unifier :=
  let found := u.grades.find v
  { u with grades := found.2.bind found.1 g, gradesPlain := u.gradesPlain.bind_find v g }

def uniteGrades (a b : GradeVar) : Unifier :=
  { u with grades := u.grades.unite a b, gradesPlain := u.grades.plain_unite u.gradesPlain a b }

/-- False when the two are distinct constants. -/
def unifyGrade (a b : Grade) : Bool × Unifier :=
  match view (u.resolveGrade a), view (u.resolveGrade b) with
  | .inl x, .inl y => (true, u.uniteGrades x y)
  | .inl v, .inr g | .inr g, .inl v => (true, u.bindGrade v g)
  | .inr a, .inr b => (decide (a.1 = b.1), u)

/-! ### Kinds -/

def kindAt (root : TyVar) : Kinded :=
  match u.kinds root with
  | some (k, witness) => ⟨k.1, witness⟩
  | none => ⟨.ANY, none⟩

def kinded (v : TyVar) : Kinded := u.kindAt (u.root .ty v)

def isDeepRow (v : RowVar) : Bool := (u.deepRows (u.root .row v)).isSome

def removeKind (root : TyVar) : Unifier := { u with kinds := Function.update u.kinds root none }

def installKind (root : TyVar) (k : Kinded) : Unifier :=
  match h : k.kind.pin with
  | some t => (u.removeKind root).bindTerm .ty root ⟨t, Kind.pin_ne_var h⟩
  | none =>
    if k.kind.isAny then u.removeKind root
    else { u with kinds := Function.update u.kinds root (some (⟨k.kind, h⟩, k.witness)) }

def freshKindedVar (kind : Kind) : TyVar × Unifier :=
  let (v, u) := u.fresh .ty
  (v, u.installKind v ⟨kind, u.spanAt⟩)

def freshDeepRowVar (deep : Bool) : RowVar × Unifier :=
  let (v, u) := u.fresh .row
  (v, if deep then { u with deepRows := Function.update u.deepRows v (some u.spanAt) } else u)

def noteBound (root : TyVar) : Unifier :=
  match u.spanAt with
  | some span =>
    { u with boundAt := Function.update u.boundAt root (some ((u.boundAt root).getD span)) }
  | none => u

def deepen (root : RowVar) (witness : Option Span) : Unifier :=
  { u with deepRows := Function.update u.deepRows root (some ((u.deepRows root).getD witness)) }

def uniteRows (a b : RowVar) : Unifier :=
  let (ar, u) := u.find .row a
  let (br, u) := u.find .row b
  if ar = br then u
  else
    let deep := u.deepRows ar
    let u : Unifier := { u with deepRows := Function.update u.deepRows ar none }
    let u := u.uniteTerms .row ar br
    match deep with
    | some witness => u.deepen br witness
    | none => u

end Unifier

/-! ### Kinds that may clash -/

abbrev Act : Type → Type := Run TypeErrorKind Unifier

namespace Act

def find (s : Srt) (v : ℕ) : Act ℕ := Run.act fun u => u.find s v

def uniteTys (a b : TyVar) : Act Unit := do
  let ar ← find .ty a
  let br ← find .ty b
  if ar = br then pure ()
  else
    let u ← Run.get
    let ka := u.kindAt ar
    let kb := u.kindAt br
    match ka.kind.meet kb.kind with
    | none => Run.fail (.kindMismatch (.used ka.kind ka.witness) kb.kind kb.witness)
    | some kind =>
      let witness := if kind = ka.kind then ka.witness else kb.witness
      Run.modify fun u =>
        ((u.uniteTerms .ty ar br).removeKind ar).installKind br ⟨kind, witness⟩

def narrow (root : TyVar) (kind : Kind) (witness : Option Span) : Act Unit := do
  let root ← find .ty root
  let u ← Run.get
  let current := u.kindAt root
  match current.kind.meet kind with
  | none => Run.fail (.kindMismatch (.used current.kind current.witness) kind witness)
  | some meet =>
    if meet = current.kind then pure ()
    else Run.modify fun u => u.installKind root ⟨meet, witness⟩

end Act

end Ral.Typecheck
