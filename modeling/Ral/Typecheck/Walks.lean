import Mathlib.Data.Finset.Erase
import Ral.Typecheck.Unifier

/-! # Walks over a store

The traversals that only read the unifier. Each marks the type and computation
roots it expands, so that a cycle ends at its back-edge; rows are followed
unmarked. The first argument is fuel.
-/

namespace Ral.Typecheck

/-- A level of nesting, which the unifier, its fingerprints and its checks
charge to one budget. -/
def maxUnifyDepth : ℕ := 512

def deeper {σ : Type} (depth : ℕ) : Run TypeErrorKind σ ℕ :=
  if maxUnifyDepth ≤ depth then Run.fail .typeTooDeep else pure (depth + 1)

/-- The roots a walk is expanding or has expanded, and those that proved cyclic. -/
structure Visited where
  seen : Srt → Finset ℕ
  cyclic : Srt → Finset ℕ
  keepWeak : Bool

namespace Visited

def new : Visited := ⟨fun _ => ∅, fun _ => ∅, false⟩

def insert (v : Visited) (s : Srt) (root : ℕ) : Visited :=
  { v with seen := Function.update v.seen s (Insert.insert root (v.seen s)) }

def remove (v : Visited) (s : Srt) (root : ℕ) : Visited :=
  { v with seen := Function.update v.seen s ((v.seen s).erase root) }

def tag (v : Visited) (s : Srt) (root : ℕ) : Visited :=
  { v with cyclic := Function.update v.cyclic s (Insert.insert root (v.cyclic s)) }

end Visited

abbrev Walk : Type → Type := Run TypeErrorKind Visited

def Walk.first (s : Srt) (root : ℕ) : Walk Bool :=
  Run.act fun v => (decide (root ∉ v.seen s), v.insert s root)

/-- A variable met on a walk, at its root. -/
inductive Var
  | term (s : Srt) (v : ℕ)
  | grade (v : GradeVar)
deriving DecidableEq

namespace Unifier

variable (u : Unifier)

def rootOf {s : Srt} (t : Term s) : Option ℕ :=
  match view t with
  | .inl v => some (u.root s v)
  | .inr _ => none

def isUnbound : Var → Bool
  | .term s v => (u.getRef s v).isNone
  | .grade _ => true

/-! ## Reachable variables -/

def gradeVarOf {s : Srt} (t : Term s) : List Var :=
  match t.grade with
  | some g =>
    match view (u.resolveGrade g) with
    | .inl v => [.grade v]
    | .inr _ => []
  | none => []

def expands (s : Srt) (root : ℕ) : Walk Bool :=
  match s with
  | .row => pure true
  | s => Walk.first s root

/-- Every variable reachable from `t`, bound ones included, in the order met. -/
def reach : ℕ → {s : Srt} → Term s → Walk (List Var)
  | 0, _, _ => Run.stuck
  | n + 1, s, t => do
      match view t with
      | .inl v =>
        let root := u.root s v
        if ← expands s root then
          match u.getRef s root with
          | some b =>
            let met ← reach n b
            pure (.term s root :: met)
          | none => pure [.term s root]
        else pure [.term s root]
      | .inr _ =>
        t.children.foldlM (fun met c => do
          let more ← reach n c.2
          pure (met ++ more)) (u.gradeVarOf t)

def freeTerm (n : ℕ) {s : Srt} (t : Term s) : Option (List Var) :=
  match u.reach n t Visited.new with
  | some (.ok met, _) => some (met.filter u.isUnbound)
  | _ => none

def rowSpine : ℕ → Row → Option (List Label × Option RowVar)
  | 0, _ => none
  | n + 1, r =>
    match u.resolve r with
    | .extend l _ rest => (rowSpine n rest).map fun p => (l :: p.1, p.2)
    | .var v => some ([], some v)
    | .empty => some ([], none)

/-! ## Substitution -/

/-- The back-edge a type root closes. One onto a thunk of a computation root
being expanded is anchored there instead. -/
def tyBackEdge (root : TyVar) : Walk (Option Ty) := do
  let visited ← Run.get
  if root ∈ visited.cyclic .ty then pure (some (.var root))
  else if root ∈ visited.seen .ty then
    let plain : Walk (Option Ty) := do
      Run.modify fun v => v.tag .ty root
      pure (some (.var root))
    match u.getRef .ty root with
    | some (.thunk (.var c)) =>
      let c := u.root .comp c
      if c ∈ visited.seen .comp then do
        Run.modify fun v => v.tag .comp c
        pure (some (.thunk (.var c)))
      else plain
    | _ => plain
  else pure none

def compBackEdge (root : CompTyVar) : Walk (Option CompTy) := do
  let visited ← Run.get
  if root ∈ visited.seen .comp then do
    Run.modify fun v => v.tag .comp root
    pure (some (.var root))
  else if root ∈ visited.cyclic .comp then pure (some (.var root))
  else pure none

def stays {s : Srt} (backEdge : ℕ → Walk (Option (Term s))) (t : Term s) :
    Walk (Option (Term s)) :=
  match u.rootOf t with
  | none => pure none
  | some r => do
      match ← backEdge r with
      | some back => pure (some back)
      | none =>
        let visited ← Run.get
        pure (if visited.keepWeak && ((u.terms s).weakSource r).isSome then some (.var r)
          else none)

/-- Expand below a root, which stays marked only if it proved cyclic. -/
def expanding {s : Srt} (t : Term s) (body : Walk (Term s)) : Walk (Term s) :=
  match u.rootOf t with
  | none => body
  | some r => do
      Run.modify fun v => v.insert s r
      let out ← body
      Run.modify fun v => if r ∈ v.cyclic s then v else v.remove s r
      pure out

mutual

def applyTyInner : ℕ → Ty → Walk Ty
  | 0, _ => Run.stuck
  | n + 1, t => do
      match ← u.stays u.tyBackEdge t with
      | some back => pure back
      | none =>
        match u.resolve t with
        | .var v => pure (.var v)
        | .list a => u.expanding t do pure (.list (← applyTyInner n a))
        | .map a => u.expanding t do pure (.map (← applyTyInner n a))
        | .handle g a =>
          u.expanding t do pure (.handle (u.resolveGrade g) (← applyTyInner n a))
        | .record r => u.expanding t do pure (.record (← applyRowInner n r))
        | .variant r => u.expanding t do pure (.variant (← applyRowInner n r))
        | .thunk b => u.expanding t do pure (.thunk (← applyCompTyInner n b))
        | .unit => u.expanding t (pure .unit)
        | .bytes => u.expanding t (pure .bytes)
        | .bool => u.expanding t (pure .bool)
        | .int => u.expanding t (pure .int)
        | .float => u.expanding t (pure .float)
        | .string => u.expanding t (pure .string)

def applyCompTyInner : ℕ → CompTy → Walk CompTy
  | 0, _ => Run.stuck
  | n + 1, t => do
      match ← u.stays compBackEdge t with
      | some back => pure back
      | none =>
        match u.resolve t with
        | .var v => pure (.var v)
        | .ret g a =>
          u.expanding t do pure (.ret (u.resolveGrade g) (← applyTyInner n a))
        | .func a b =>
          u.expanding t do
            let a ← applyTyInner n a
            let b ← applyCompTyInner n b
            pure (.func a b)

def applyRowInner : ℕ → Row → Walk Row
  | 0, _ => Run.stuck
  | n + 1, t => do
      match ← u.stays (fun _ => pure none) t with
      | some kept => pure kept
      | none =>
        match u.resolve t with
        | .empty => pure .empty
        | .var v => pure (.var v)
        | .extend l a rest => do
            let a ← applyTyInner n a
            let rest ← applyRowInner n rest
            pure (.extend l a rest)

end

/-- The result of a walk that does not fail, from no marks. -/
def quoted {α : Type} (x : Walk α) : Option α :=
  match x Visited.new with
  | some (.ok a, _) => some a
  | _ => none

def applyTy (n : ℕ) (t : Ty) : Option Ty := quoted (u.applyTyInner n t)

def applyCompTy (n : ℕ) (t : CompTy) : Option CompTy := quoted (u.applyCompTyInner n t)

def applyRow (n : ℕ) (t : Row) : Option Row := quoted (u.applyRowInner n t)

/-! ## Occurrence of a row variable -/

/-- Whether a type or computation root was expanded before. -/
def revisits {s : Srt} (t : Term s) : Walk Bool :=
  match u.rootOf t with
  | none => pure false
  | some r => do pure (! (← Walk.first s r))

mutual

def rowOccursInner (v : RowVar) : ℕ → Row → ℕ → Walk Bool
  | 0, _, _ => Run.stuck
  | n + 1, r, depth =>
    match u.resolve r with
    | .empty => pure false
    | .var w => pure (decide (w = v))
    | .extend _ t rest => do
        let d ← deeper depth
        if ← tyOccursRow v n t d then do
          pure true
        else rowOccursInner v n rest depth

def tyOccursRow (v : RowVar) : ℕ → Ty → ℕ → Walk Bool
  | 0, _, _ => Run.stuck
  | n + 1, t, depth => do
      if ← u.revisits t then pure false
      else
        match u.resolve t with
        | .list a | .map a | .handle _ a => do
            let d ← deeper depth
            tyOccursRow v n a d
        | .record r | .variant r => do
            let d ← deeper depth
            rowOccursInner v n r d
        | .thunk c => do
            let d ← deeper depth
            compOccursRow v n c d
        | .var _ | .unit | .bytes | .bool | .int | .float | .string => pure false

def compOccursRow (v : RowVar) : ℕ → CompTy → ℕ → Walk Bool
  | 0, _, _ => Run.stuck
  | n + 1, t, depth => do
      if ← u.revisits t then pure false
      else
        match u.resolve t with
        | .var _ => pure false
        | .ret _ a => do
            let d ← deeper depth
            tyOccursRow v n a d
        | .func a b => do
            let d ← deeper depth
            if ← tyOccursRow v n a d then pure true
            else do
              let d ← deeper depth
              compOccursRow v n b d

end

def rowOccurs (n : ℕ) (v : RowVar) (r : Row) (depth : ℕ) : Option (Except TypeErrorKind Bool) :=
  Run.outcome (u.rowOccursInner v n r depth) Visited.new

/-! ## Cycles that cross no data -/

/-- The variable a binding must not reach again without crossing data. -/
structure Anchor where
  sort : Srt
  root : ℕ
deriving DecidableEq

/-- What a variable met on the search settles: the anchor, or a root seen before. -/
def meets (anchor : Anchor) (via : CycleVia) {s : Srt} (t : Term s) :
    Walk (Option (Option CycleVia)) :=
  match u.rootOf t with
  | none => pure none
  | some r =>
    if anchor = ⟨s, r⟩ then pure (some (some via))
    else do
      if ← Walk.first s r then pure none else pure (some none)

mutual

def tyReaches (anchor : Anchor) : ℕ → Ty → CycleVia → ℕ → Walk (Option CycleVia)
  | 0, _, _, _ => Run.stuck
  | n + 1, t, via, depth => do
      match ← u.meets anchor via t with
      | some settled => pure settled
      | none =>
        match u.resolve t with
        | .thunk c => do
            let d ← deeper depth
            compReaches anchor n c via d
        | .handle _ a => do
            let d ← deeper depth
            tyReaches anchor n a via d
        | .list _ | .map _ | .record _ | .variant _ => pure none
        | .var _ | .unit | .bytes | .bool | .int | .float | .string => pure none

def compReaches (anchor : Anchor) : ℕ → CompTy → CycleVia → ℕ → Walk (Option CycleVia)
  | 0, _, _, _ => Run.stuck
  | n + 1, t, via, depth => do
      match ← u.meets anchor via t with
      | some settled => pure settled
      | none =>
        let d ← deeper depth
        match u.resolve t with
        | .var _ => pure none
        | .ret _ a => tyReaches anchor n a .returns d
        | .func a b => do
            let argVia : CycleVia := if a.asVar.isSome then .applied else .argument
            match ← tyReaches anchor n a argVia d with
            | some via => pure (some via)
            | none => compReaches anchor n b .returns d

end

/-! ## Fingerprints -/

/-- A fingerprint of the term as given, every variable at its root and every
grade resolved. -/
def key : {s : Srt} → Term s → ℕ → Act (Term s)
  | s, .var v, _ => do pure (.var (← Act.find s v))
  | _, .unit, _ => pure .unit
  | _, .bytes, _ => pure .bytes
  | _, .bool, _ => pure .bool
  | _, .int, _ => pure .int
  | _, .float, _ => pure .float
  | _, .string, _ => pure .string
  | _, .list a, depth => do pure (.list (← key a (← deeper depth)))
  | _, .map a, depth => do pure (.map (← key a (← deeper depth)))
  | _, .record r, depth => do pure (.record (← key r (← deeper depth)))
  | _, .variant r, depth => do pure (.variant (← key r (← deeper depth)))
  | _, .thunk b, depth => do pure (.thunk (← key b (← deeper depth)))
  | _, .handle g a, depth => do
      let u ← Run.get
      pure (.handle (u.resolveGrade g) (← key a (← deeper depth)))
  | _, .ret g a, depth => do
      let u ← Run.get
      pure (.ret (u.resolveGrade g) (← key a (← deeper depth)))
  | _, .func a b, depth => do
      let a ← key a (← deeper depth)
      let b ← key b (← deeper depth)
      pure (.func a b)
  | _, .empty, _ => pure .empty
  | _, .extend l t rest, depth => do
      let t ← key t (← deeper depth)
      let rest ← key rest depth
      pure (.extend l t rest)

end Unifier

/-! ## Data -/

/-- The free variables a data obligation lands on. -/
structure Owed where
  tys : List TyVar
  rows : List RowVar

structure DataWalk where
  seen : Finset TyVar
  owed : Owed

namespace DataWalk

def oweTy (w : DataWalk) (v : TyVar) : DataWalk :=
  { w with owed := { w.owed with tys := w.owed.tys ++ [v] } }

def oweRow (w : DataWalk) (v : RowVar) : DataWalk :=
  { w with owed := { w.owed with rows := w.owed.rows ++ [v] } }

/-- Whether a root was expanded before. -/
def revisits (u : Unifier) (t : Ty) : Run TypeErrorKind DataWalk Bool :=
  match u.rootOf t with
  | none => pure false
  | some r => Run.act fun w => (decide (r ∈ w.seen), { w with seen := Insert.insert r w.seen })

end DataWalk

namespace Unifier

variable (u : Unifier)

def kindError {σ : Type} (n : ℕ) (found : Ty) (kind : Kind) (witness : Option Span) :
    Run TypeErrorKind σ Unit :=
  Run.lift ((u.applyTy n found).map fun t => .error (.kindMismatch (.type t) kind witness))

mutual

/-- Refuse a block or handle, and collect the variables the obligation lands on. -/
def dataTy (witness : Option Span) : ℕ → Ty → ℕ → Run TypeErrorKind DataWalk Unit
  | 0, _, _ => Run.stuck
  | n + 1, t, depth => do
      if ← DataWalk.revisits u t then pure ()
      else
        let d ← deeper depth
        match u.resolve t with
        | .var v => Run.modify fun w => w.oweTy v
        | .unit | .bool | .int | .float | .string | .bytes => pure ()
        | .list a | .map a => dataTy witness n a d
        | .record r | .variant r => dataRow witness n r d
        | .thunk b => u.kindError n (.thunk b) .DATA witness
        | .handle g a => u.kindError n (.handle g a) .DATA witness

def dataRow (witness : Option Span) : ℕ → Row → ℕ → Run TypeErrorKind DataWalk Unit
  | 0, _, _ => Run.stuck
  | n + 1, r, depth =>
    match u.resolve r with
    | .empty => pure ()
    | .var v => Run.modify fun w => w.oweRow v
    | .extend _ t rest => do
        dataTy witness n t depth
        dataRow witness n rest depth

end

end Unifier

end Ral.Typecheck
