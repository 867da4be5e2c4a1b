import Ral.Typecheck.Graph

/-! # Unification as a machine

The work left is a list of equations, the store a `Core`, and every equation met
so far is assumed. One step solves, discharges or splits the first equation.
-/

namespace Ral.Typecheck
open Relation

/-! ## Tasks -/

/-- An equation of two terms, or of the grades of two producers of `pa` and `pb`. -/
inductive Task
  | eq {s : Srt} (a b : Term s)
  | grade (ga : Grade) (pa : Ty) (gb : Grade) (pb : Ty)

abbrev Assumed : Type := (s : Srt) → Term s → Term s → Prop

namespace Assumed

def none : Assumed := fun _ _ _ => False

/-- One more equation, either way round. -/
def add (P : Assumed) {s : Srt} (a b : Term s) : Assumed :=
  Function.update P s fun x y => P s x y ∨ (x = a ∧ y = b) ∨ (x = b ∧ y = a)

theorem add_self {P : Assumed} {s : Srt} {a b x y : Term s} :
    P.add a b s x y ↔ P s x y ∨ (x = a ∧ y = b) ∨ (x = b ∧ y = a) := by
  simp [add]

theorem add_ne {P : Assumed} {s s' : Srt} {a b : Term s} {x y : Term s'} (h : s' ≠ s) :
    P.add a b s' x y ↔ P s' x y := by
  simp [add, h]

theorem le_add {P : Assumed} {s s' : Srt} {a b : Term s} {x y : Term s'} (h : P s' x y) :
    P.add a b s' x y := by
  by_cases hs : s' = s
  · subst hs
    exact add_self.mpr (Or.inl h)
  · exact (add_ne hs).mpr h

end Assumed

/-- Two structures with one constructor, and the equations of their components. -/
inductive Splits : {s : Srt} → Term s → Term s → List Task → Prop
  | unit : Splits .unit .unit []
  | bytes : Splits .bytes .bytes []
  | bool : Splits .bool .bool []
  | int : Splits .int .int []
  | float : Splits .float .float []
  | string : Splits .string .string []
  | list {a b : Ty} : Splits (.list a) (.list b) [.eq a b]
  | map {a b : Ty} : Splits (.map a) (.map b) [.eq a b]
  | record {a b : Row} : Splits (.record a) (.record b) [.eq a b]
  | variant {a b : Row} : Splits (.variant a) (.variant b) [.eq a b]
  | thunk {a b : CompTy} : Splits (.thunk a) (.thunk b) [.eq a b]
  | func {a a' : Ty} {b b' : CompTy} : Splits (.func a b) (.func a' b') [.eq a a', .eq b b']

/-- Two producers of one constructor. -/
inductive Producers : {s : Srt} → Term s → Term s → Grade → Ty → Grade → Ty → Prop
  | handle {g g' : Grade} {a a' : Ty} : Producers (.handle g a) (.handle g' a') g a g' a'
  | ret {g g' : Grade} {a a' : Ty} : Producers (.ret g a) (.ret g' a') g a g' a'

namespace Core

variable (c : Core)

def key : {s : Srt} → Term s → Term s
  | s, .var v => .var (c.anchor s v)
  | _, .unit => .unit
  | _, .bytes => .bytes
  | _, .bool => .bool
  | _, .int => .int
  | _, .float => .float
  | _, .string => .string
  | _, .list a => .list (key a)
  | _, .map a => .map (key a)
  | _, .record r => .record (key r)
  | _, .variant r => .variant (key r)
  | _, .thunk b => .thunk (key b)
  | _, .handle g a => .handle (c.resolveGrade g) (key a)
  | _, .ret g a => .ret (c.resolveGrade g) (key a)
  | _, .func a b => .func (key a) (key b)
  | _, .empty => .empty
  | _, .extend l t rest => .extend l (key t) (key rest)

def regraded : CompTy → CompTy
  | .ret g a => .ret (c.resolveGrade g) a
  | t => t

theorem regraded_headed {t : CompTy} (h : t.asVar = none) : (c.regraded t).asVar = none := by
  cases t with
  | var v => simp at h
  | ret g a => rfl
  | func a b => rfl

def regrade (t : Struct CompTy) : Struct CompTy := ⟨c.regraded t.val, c.regraded_headed t.headed⟩

/-- The labels along the spine of a row, and the free variable of an open end. -/
inductive Spine (c : Core) : Row → List Label → Option RowVar → Prop
  | closed {r : Row} (h : c.resolve r = .empty) : Spine c r [] none
  | opened {r : Row} {v : RowVar} (h : c.resolve r = .var v) : Spine c r [] (some v)
  | field {r rest : Row} {l : Label} {t : Ty} {ls : List Label} {v : Option RowVar}
      (h : c.resolve r = .extend l t rest) (hr : Spine c rest ls v) : Spine c r (l :: ls) v

/-! ## Binding -/

def Sides {s : Srt} (a b : Term s) (x : ℕ) (val : Struct (Term s)) : Prop :=
  (c.resolve a = .var x ∧ c.resolve b = val.val) ∨ (c.resolve b = .var x ∧ c.resolve a = val.val)

/-- Data imposed on some free variables and rows. -/
inductive Imposes (c' : Core) : Prop
  | mk (owed : Owed) (c₁ : Core) (hfree : ∀ v ∈ owed.tys, c.Free .ty v)
      (htys : c.imposeTys owed.tys = some c₁) (hrows : c₁.imposeRows owed.rows = c')

/-- `x` becomes `val`, whose head its kind admits and whose components are made
data where the kind is deep. The search saw no root but `x` itself. -/
inductive BindsTy (x : TyVar) (val : Struct Ty) (c' : Core) : Prop
  | mk (c₁ : Core) (hflow : ¬ c.Meets flowNode (c.AtAnchor .ty x) ⟨.ty, val.val⟩)
      (hhead : ∀ h, Head.of val.val = some h → h ∈ (c.kind x).heads)
      (hdata : (c.kind x).deep = false ∧ c₁ = c ∨ (c.kind x).deep = true ∧ c.Imposes c₁)
      (hbind : c' = ((c₁.setKind x .any).bind .ty x val).overlook (c.Overlooks .ty x ⟨.ty, val.val⟩))

inductive BindsComp (x : CompTyVar) (val : Struct CompTy) (c' : Core) : Prop
  | mk (hflow : ¬ c.Meets flowNode (c.AtAnchor .comp x) ⟨.comp, val.val⟩)
      (hbind : c' = (c.bind .comp x val).overlook (c.Overlooks .comp x ⟨.comp, val.val⟩))

inductive BindsRow (x : RowVar) (val : Struct Row) (c' : Core) : Prop
  | mk (c₁ : Core) (hocc : ¬ c.Meets anyNode (c.AtRoot .row x) ⟨.row, val.val⟩)
      (hdata : c.deep x = false ∧ c₁ = c ∨ c.deep x = true ∧ c.Imposes c₁)
      (hbind : c' = (c₁.setDeep x false).bind .row x val)

/-- What a failing step may have done to the store: narrowed some variables. -/
def Aborts (c c' : Core) : Prop :=
  ∃ pre : List TyVar, (∀ v ∈ pre, c.Free .ty v) ∧ c.imposeTys pre = some c'

/-! ## Producers -/

def admitsUnit : Ty → Bool
  | .unit => true
  | .var v => (c.kind v).admits .unit
  | _ => false

/-- One side is output and the other cannot be `Unit`. -/
def Rejects (ga : Grade) (a : Ty) (gb : Grade) (b : Ty) : Prop :=
  (c.resolveGrade ga = .output ∧ c.admitsUnit (c.resolve b) = false) ∨
    (c.resolveGrade gb = .output ∧ c.admitsUnit (c.resolve a) = false)

def unitVariable (t : Ty) : Bool := c.admitsUnit (c.resolve t) && (c.resolve t).asVar.isSome

def PayloadFirst (ga : Grade) (a : Ty) (gb : Grade) (b : Ty) : Prop :=
  c.resolveGrade ga ≠ .value ∧ c.resolveGrade gb ≠ .value ∧
    ((c.unitVariable a || c.unitVariable b) = true ∨
      c.admitsUnit (c.resolve a) ≠ c.admitsUnit (c.resolve b))

end Core

/-! ## Runs -/

structure Config where
  tasks : List Task
  core : Core
  assumed : Assumed

inductive Step : Config → Config → Prop
  | same {s : Srt} {a b : ℕ} {ts : List Task} {c : Core} {P : Assumed}
      (h : c.anchor s a = c.anchor s b) :
      Step ⟨.eq (.var a : Term s) (.var b) :: ts, c, P⟩ ⟨ts, c, P⟩
  | hit {s : Srt} {a b : Term s} {ts : List Task} {c : Core} {P : Assumed}
      (h : P s (c.key a) (c.key b)) : Step ⟨.eq a b :: ts, c, P⟩ ⟨ts, c, P⟩
  | aliased {a b : Ty} {x : TyVar} {ts : List Task} {c : Core} {P : Assumed}
      (ha : c.resolve a = .var x) (hb : c.resolve b = .var x) :
      Step ⟨.eq a b :: ts, c, P⟩ ⟨ts, c, P.add (c.key a) (c.key b)⟩
  | uniteTy {a b : Ty} {x y : TyVar} {k : Kind} {ts : List Task} {c : Core} {P : Assumed}
      (ha : c.resolve a = .var x) (hb : c.resolve b = .var y) (hxy : x ≠ y)
      (hk : (c.kind x).meet (c.kind y) = some k) :
      Step ⟨.eq a b :: ts, c, P⟩ ⟨ts, c.uniteTys x y k, P.add (c.key a) (c.key b)⟩
  | uniteComp {a b : CompTy} {x y : CompTyVar} {ts : List Task} {c : Core} {P : Assumed}
      (ha : c.resolve a = .var x) (hb : c.resolve b = .var y) :
      Step ⟨.eq a b :: ts, c, P⟩ ⟨ts, c.unite .comp x y, P.add (c.key a) (c.key b)⟩
  | uniteRow {a b : Row} {x y : RowVar} {ts : List Task} {c : Core} {P : Assumed}
      (ha : c.resolve a = .var x) (hb : c.resolve b = .var y) :
      Step ⟨.eq a b :: ts, c, P⟩ ⟨ts, c.uniteRows x y, P⟩
  | bindTy {a b : Ty} {x : TyVar} {val : Struct Ty} {c' : Core} {ts : List Task} {c : Core}
      {P : Assumed} (h : c.Sides a b x val) (hc : c.BindsTy x val c') :
      Step ⟨.eq a b :: ts, c, P⟩ ⟨ts, c', P.add (c.key a) (c.key b)⟩
  | bindComp {a b : CompTy} {x : CompTyVar} {val : Struct CompTy} {c' : Core} {ts : List Task}
      {c : Core} {P : Assumed} (h : c.Sides a b x val)
      (hc : c.BindsComp x (c.regrade val) c') :
      Step ⟨.eq a b :: ts, c, P⟩ ⟨ts, c', P.add (c.key a) (c.key b)⟩
  | bindRow {a b : Row} {x : RowVar} {val : Struct Row} {c' : Core} {ts : List Task} {c : Core}
      {P : Assumed} (h : c.Sides a b x val) (hc : c.BindsRow x val c') :
      Step ⟨.eq a b :: ts, c, P⟩ ⟨ts, c', P⟩
  | split {s : Srt} {a b x y : Term s} {new ts : List Task} {c : Core} {P : Assumed}
      (ha : c.resolve a = x) (hb : c.resolve b = y) (h : Splits x y new) :
      Step ⟨.eq a b :: ts, c, P⟩ ⟨new ++ ts, c, P.add (c.key a) (c.key b)⟩
  | payloadFirst {s : Srt} {a b x y : Term s} {ga gb : Grade} {pa pb : Ty} {ts : List Task}
      {c : Core} {P : Assumed} (ha : c.resolve a = x) (hb : c.resolve b = y)
      (h : Producers x y ga pa gb pb) (hn : ¬ c.Rejects ga pa gb pb)
      (hp : c.PayloadFirst ga pa gb pb) :
      Step ⟨.eq a b :: ts, c, P⟩
        ⟨.eq pa pb :: .grade (c.resolveGrade ga) pa (c.resolveGrade gb) pb :: ts, c,
          P.add (c.key a) (c.key b)⟩
  | gradeFirst {s : Srt} {a b x y : Term s} {ga gb : Grade} {pa pb : Ty} {ts : List Task}
      {c : Core} {P : Assumed} (ha : c.resolve a = x) (hb : c.resolve b = y)
      (h : Producers x y ga pa gb pb) (hn : ¬ c.Rejects ga pa gb pb)
      (hp : ¬ c.PayloadFirst ga pa gb pb) :
      Step ⟨.eq a b :: ts, c, P⟩
        ⟨.grade (c.resolveGrade ga) pa (c.resolveGrade gb) pb :: .eq pa pb :: ts, c,
          P.add (c.key a) (c.key b)⟩
  | grade {ga gb : Grade} {pa pb : Ty} {c' : Core} {ts : List Task} {c : Core} {P : Assumed}
      (h : c.unifyGrade ga gb = some c') :
      Step ⟨.grade ga pa gb pb :: ts, c, P⟩ ⟨ts, c', P⟩
  | rowEmpty {a b : Row} {ts : List Task} {c : Core} {P : Assumed}
      (ha : c.resolve a = .empty) (hb : c.resolve b = .empty) :
      Step ⟨.eq a b :: ts, c, P⟩ ⟨ts, c, P⟩
  | rowLabel {a b r r' : Row} {l : Label} {t t' : Ty} {ts : List Task} {c : Core} {P : Assumed}
      (ha : c.resolve a = .extend l t r) (hb : c.resolve b = .extend l t' r') :
      Step ⟨.eq a b :: ts, c, P⟩ ⟨.eq t t' :: .eq r r' :: ts, c, P⟩
  | rowRewrite {a b r r' : Row} {l l' : Label} {t t' : Ty} {left right : List Label}
      {lt rt : Option RowVar} {ts : List Task} {c : Core} {P : Assumed}
      (ha : c.resolve a = .extend l t r) (hb : c.resolve b = .extend l' t' r') (hl : l ≠ l')
      (halpha : l.isField = l'.isField) (hleft : c.Spine r left lt) (hright : c.Spine r' right rt)
      (htail : lt = rt → lt ≠ none → (l :: left).Perm (l' :: right)) :
      Step ⟨.eq a b :: ts, c, P⟩
        ⟨.eq r (.extend l' t' (.var (c.cls .row).next)) ::
          .eq (.extend l t (.var (c.cls .row).next)) r' :: ts, c.fresh .row, P⟩

abbrev Steps : Config → Config → Prop := ReflTransGen Step

end Ral.Typecheck
