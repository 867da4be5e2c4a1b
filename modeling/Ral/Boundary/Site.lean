import Ral.Boundary.Value
import Ral.Typecheck.Unifier
import Ral.Typecheck.Walks

/-! # A checked boundary's type, frozen

The graph a site is, and what a session's comparable variables were fixed to.
-/

namespace Ral.Boundary

open Ral.Typecheck (Kind Span)

inductive GradeShape
  | value
  | output
  | free (var : ℕ)
  deriving DecidableEq

/-- How a row ends. -/
inductive Tail
  | closed
  | open (var : ℕ) (deep weak : Bool)
  deriving DecidableEq

/-- A row's labels in first-appearance order, and how it ends. -/
structure Fields where
  labels : List (String × ℕ)
  tail : Tail
  deriving DecidableEq

/-- A number is another node. -/
inductive Shape
  | unit
  | bytes
  | bool
  | int
  | float
  | string
  | list (elem : ℕ)
  | map (elem : ℕ)
  | handle (grade : GradeShape) (payload : ℕ)
  | record (fields : Fields)
  | variant (fields : Fields)
  | thunk (body : ℕ)
  | free (var : ℕ) (kind : Kind) (weak : Bool)
  | ret (grade : GradeShape) (value : ℕ)
  | func (arg body : ℕ)
  | freeComp (weak : Bool)
  deriving DecidableEq

structure Node where
  shape : Shape
  witness : Option Span
  deriving DecidableEq

def Node.placeholder : Node := ⟨.unit, none⟩

/-- A compiled unit's name. -/
structure UnitId where
  process : ℕ
  seq : ℕ
  deriving DecidableEq

structure Site where
  nodes : List Node
  root : ℕ
  unit : UnitId
  deriving DecidableEq

def Site.node (site : Site) (id : ℕ) : Node := site.nodes.getD id .placeholder

/-- What a variable was fixed to, and where. -/
structure Fixed where
  side : Side
  pointer : String
  deriving DecidableEq

abbrev Fixings := UnitId × ℕ → Option Fixed

namespace Fixings

def none : Fixings := fun _ => .none

def fix (unit : UnitId) (var : ℕ) (side : Side) (pointer : String) (table : Fixings) :
    Except Fixed Unit × Fixings :=
  match table (unit, var) with
  | some first => if first.side ≠ side then (.error first, table) else (.ok (), table)
  | .none => (.ok (), Function.update table (unit, var) (some ⟨side, pointer⟩))

def Extends (table table' : Fixings) : Prop := ∀ key fixed, table key = some fixed → table' key = some fixed

theorem Extends.refl (table : Fixings) : table.Extends table := fun _ _ h => h

theorem Extends.trans {a b c : Fixings} (hab : a.Extends b) (hbc : b.Extends c) : a.Extends c :=
  fun key fixed h => hbc key fixed (hab key fixed h)

variable {unit : UnitId} {var : ℕ} {side : Side} {pointer : String} {table : Fixings}

section
variable (table unit var side pointer)

theorem extends_fix : table.Extends (table.fix unit var side pointer).2 := by
  intro key fixed h
  unfold fix
  split
  · split
    · exact h
    · exact h
  · next free =>
      have other : key ≠ (unit, var) := by
        rintro rfl
        simp [free] at h
      exact (Function.update_of_ne other _ _).trans h

theorem fix_cases :
    (∃ fixed, (table.fix unit var side pointer).1 = .ok () ∧
        (table.fix unit var side pointer).2 (unit, var) = some fixed ∧ fixed.side = side ∧
        ∀ first, table (unit, var) = some first → first = fixed) ∨
      ∃ first, table (unit, var) = some first ∧ first.side ≠ side ∧
        table.fix unit var side pointer = (.error first, table) := by
  unfold fix
  cases found : table (unit, var) with
  | none => exact Or.inl ⟨_, rfl, Function.update_self .., rfl, by simp⟩
  | some first =>
    by_cases same : first.side = side
    · refine Or.inl ⟨first, by simp [same], ?_, same, by simp⟩
      simp [same, found]
    · exact Or.inr ⟨first, rfl, same, by simp [same]⟩

end

theorem fix_new {key : UnitId × ℕ} {fixed : Fixed}
    (h : (table.fix unit var side pointer).2 key = some fixed) :
    table key = some fixed ∨ (key = (unit, var) ∧ fixed.side = side) := by
  unfold fix at h
  split at h
  · split at h
    · exact Or.inl h
    · exact Or.inl h
  · by_cases same : key = (unit, var)
    · subst same
      have eq := (Function.update_self ..).symm.trans h
      rw [Option.some.injEq] at eq
      subst eq
      exact Or.inr ⟨rfl, rfl⟩
    · exact Or.inl ((Function.update_of_ne same _ _).symm.trans h)

end Fixings

/-! ## Freezing a type

The checker freezes the type it solved at a boundary: one node for each variable root,
allocated before its structure is walked, so that a cycle closes on it. The first
argument of a walk is fuel.
-/

open Ral.Typecheck (Ty CompTy Row Term Srt Grade Unifier Unifiable view)

def GradeShape.of : Grade → GradeShape
  | .value => .value
  | .output => .output
  | .var v => .free v

structure Build where
  nodes : List Node
  tys : List (ℕ × ℕ)
  comps : List (ℕ × ℕ)

abbrev Building : Type → Type := Run Empty Build

namespace Build

def new : Build := ⟨[], [], []⟩

/-- The node of each root met. -/
def memo (b : Build) : Srt → List (ℕ × ℕ)
  | .ty => b.tys
  | .comp => b.comps
  | .row => []

def known (b : Build) (s : Srt) (root : ℕ) : Option ℕ :=
  ((b.memo s).find? fun e => e.1 = root).map Prod.snd

def note (s : Srt) (root id : ℕ) (b : Build) : Build :=
  match s with
  | .ty => { b with tys := (root, id) :: b.tys }
  | .comp => { b with comps := (root, id) :: b.comps }
  | .row => b

def alloc : Building ℕ := Run.act fun b => (b.nodes.length, { b with nodes := b.nodes ++ [.placeholder] })

def put (id : ℕ) (node : Node) : Building Unit :=
  Run.modify fun b => { b with nodes := b.nodes.set id node }

variable (u : Unifier)

def isWeak (s : Srt) (v : ℕ) : Bool := ((u.terms s).weakSource v).isSome

def enter {s : Srt} (t : Term s) (fill : Building Node) : Building ℕ := do
  let id ← alloc
  match u.rootOf t with
  | some root => Run.modify (note s root id)
  | none => pure ()
  let node ← fill
  put id node
  pure id

def entered {s : Srt} (t : Term s) (fill : Building Node) : Building ℕ := do
  let b ← Run.get
  match (u.rootOf t).bind (b.known s) with
  | some id => pure id
  | none => enter u t fill

mutual

def ty : ℕ → Ty → Building ℕ
  | 0, _ => Run.stuck
  | n + 1, t =>
    entered u t do
      let (shape, witness) ← tyShape n (u.resolve t)
      pure ⟨shape, witness.or ((u.rootOf t).bind u.boundAt)⟩

def tyShape : ℕ → Ty → Building (Shape × Option Ral.Typecheck.Span)
  | 0, _ => Run.stuck
  | n + 1, head =>
    match head with
    | .var v => pure (.free v (u.kinded v).kind (isWeak u .ty v), (u.kinded v).witness)
    | .unit => pure (.unit, none)
    | .bytes => pure (.bytes, none)
    | .bool => pure (.bool, none)
    | .int => pure (.int, none)
    | .float => pure (.float, none)
    | .string => pure (.string, none)
    | .list a => do
        let elem ← ty n a
        pure (.list elem, none)
    | .map a => do
        let elem ← ty n a
        pure (.map elem, none)
    | .handle grade a => do
        let payload ← ty n a
        pure (.handle (.of (u.resolveGrade grade)) payload, none)
    | .record r => do
        let row ← fields n r []
        pure (.record row, none)
    | .variant r => do
        let row ← fields n r []
        pure (.variant row, none)
    | .thunk c => do
        let body ← comp n c
        pure (.thunk body, none)

def comp : ℕ → CompTy → Building ℕ
  | 0, _ => Run.stuck
  | n + 1, c =>
    entered u c do
      let shape ← compShape n (u.resolve c)
      pure ⟨shape, none⟩

def compShape : ℕ → CompTy → Building Shape
  | 0, _ => Run.stuck
  | n + 1, head =>
    match head with
    | .var v => pure (.freeComp (isWeak u .comp v))
    | .ret grade a => do
        let value ← ty n a
        pure (.ret (.of (u.resolveGrade grade)) value)
    | .func a b => do
        let arg ← ty n a
        let body ← comp n b
        pure (.func arg body)

/-- The first occurrence of each label, after `labels`. -/
def fields : ℕ → Row → List (String × ℕ) → Building Fields
  | 0, _, _ => Run.stuck
  | n + 1, row, labels =>
    match u.resolve row with
    | .extend l t rest =>
      if labels.any fun e => e.1 = l.name then fields n rest labels
      else do
        let id ← ty n t
        fields n rest (labels ++ [(l.name, id)])
    | .var v => pure ⟨labels, .open v (u.isDeepRow v) (isWeak u .row v)⟩
    | .empty => pure ⟨labels, .closed⟩

end

end Build

def Site.snapshot (u : Unifier) (n : ℕ) (t : Ty) (unit : UnitId) : Option Site :=
  match Build.ty u n t .new with
  | some (.ok root, b) => some ⟨b.nodes, root, unit⟩
  | _ => none

end Ral.Boundary
