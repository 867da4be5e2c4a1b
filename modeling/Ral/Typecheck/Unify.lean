import Mathlib.Data.Finset.Sort
import Mathlib.Data.Finset.Union
import Mathlib.Data.List.Perm.Basic
import Ral.Typecheck.Core
import Ral.Typecheck.Walks

/-! # Unification

Destructive unification over value types, computation types, rows and grades.
Value and computation types are equi-recursive as long as every cycle crosses
data; rows are inductive. The pairs already being solved are assumed.
-/

namespace Ral.Typecheck

/-! ## Assumed pairs -/

/-- Equality obligations in progress: two roots, or a root against the
fingerprint of a structure. -/
structure Pairs where
  roots : Srt → Finset (ℕ × ℕ)
  expansions : (s : Srt) → Finset (ℕ × Term s)

def Pairs.new : Pairs := ⟨fun _ => ∅, fun _ => ∅⟩

def orderedPair (a b : ℕ) : ℕ × ℕ := if a ≤ b then (a, b) else (b, a)

structure Solving where
  u : Unifier
  pairs : Pairs

abbrev Solve : Type → Type := Run TypeErrorKind Solving

namespace Solve

def act {α : Type} (x : Act α) : Solve α := Run.zoom Solving.u (fun u st => { st with u := u }) x

def unifier : Solve Unifier := fun st => some (.ok st.u, st)

/-- Whether two roots coincide or their equation is in progress. -/
def guardPair (s : Srt) (a b : ℕ) : Solve Bool := Run.act fun st =>
  if a = b then (true, st)
  else (decide (orderedPair a b ∈ st.pairs.roots s),
    { st with pairs := { st.pairs with
      roots := Function.update st.pairs.roots s
        (insert (orderedPair a b) (st.pairs.roots s)) } })

def guardExpansion (s : Srt) (root : ℕ) (key : Term s) : Solve Bool := Run.act fun st =>
  (decide ((root, key) ∈ st.pairs.expansions s),
    { st with pairs := { st.pairs with
      expansions := Function.update st.pairs.expansions s
        (insert (root, key) (st.pairs.expansions s)) } })

def assumed {s : Srt} (a b : Term s) (depth : ℕ) : Solve Bool := do
  match view a, view b with
  | .inl ai, .inl bi =>
    let ar ← act (Act.find s ai)
    let br ← act (Act.find s bi)
    guardPair s ar br
  | .inl vi, .inr other | .inr other, .inl vi =>
    let root ← act (Act.find s vi)
    let key ← act (Unifier.key other.1 depth)
    guardExpansion s root key
  | .inr _, .inr _ => pure false

end Solve

/-! ## Binding -/

/-- Instantiation's: a root minted for a snapshot, bound to it. -/
def Unifier.bindRoot (u : Unifier) (s : Srt) (root : ℕ) (value : Term s) : Unifier :=
  (u.setTerms s ((u.terms s).bindRoot root value)).overlook
    (u.core.Meets Core.flowNode (u.core.AtRoot s root) ⟨s, value⟩)

namespace Act

def markWeak (n : ℕ) {s : Srt} (t : Term s) (source : WeakSource) : Act Unit := do
  let u ← Run.get
  match u.freeTerm n t with
  | none => Run.stuck
  | some free =>
    Run.modify fun u => free.foldl (fun u v =>
      match v with
      | .term s v => u.markWeakVar s v source
      | .grade _ => u) u

def weaken (n : ℕ) (s : Srt) (root : ℕ) {s' : Srt} (val : Term s') : Act Unit := do
  let u ← Run.get
  match (u.terms s).weakSource root with
  | some source => markWeak n val source
  | none => pure ()

def imposeData (owed : Owed) (witness : Option Span) : Act Unit := do
  owed.tys.forM fun root => narrow root .DATA witness
  owed.rows.forM fun root => do
    let root ← find .row root
    Run.modify fun u => u.deepen root witness

def owing (x : Run TypeErrorKind DataWalk Unit) (seen : Finset TyVar) : Act Owed := do
  match x ⟨seen, ⟨[], []⟩⟩ with
  | none => Run.stuck
  | some (.error e, _) => Run.fail e
  | some (.ok _, w) => pure w.owed

def admitTy (n : ℕ) (root : TyVar) (val : Ty) (depth : ℕ) : Act Unit := do
  let u ← Run.get
  match u.kinds root with
  | none => pure ()
  | some (kind, witness) =>
    if (Head.of val).any fun head => !kind.1.admits head then u.kindError n val kind.1 witness
    else do
      if kind.1.deep then
        let owed ← owing (u.dataTy witness n val depth) {root}
        imposeData owed witness
      Run.modify fun u => u.removeKind root

def admitRow (n : ℕ) (root : RowVar) (val : Row) (depth : ℕ) : Act Unit := do
  let u ← Run.get
  match u.deepRows root with
  | none => pure ()
  | some witness =>
    let owed ← owing (u.dataRow witness n val depth) ∅
    imposeData owed witness
    Run.modify fun u => { u with deepRows := Function.update u.deepRows root none }

def refuseDataFreeCycle (search : CycleVia → ℕ → Walk (Option CycleVia)) (depth : ℕ) :
    Act Unit := do
  match ← Run.lift (Run.outcome (search .returns depth) Visited.new) with
  | some via => Run.fail (.cyclicType via)
  | none => pure ()

def bindTy (n : ℕ) (v : TyVar) (val : Struct Ty) (depth : ℕ) : Act Unit := do
  let root ← find .ty v
  let u ← Run.get
  refuseDataFreeCycle (u.tyReaches ⟨.ty, root⟩ n val.1) depth
  admitTy n root val.1 depth
  weaken n .ty root val.1
  let overlooks := u.core.Overlooks .ty root ⟨.ty, val.1⟩
  Run.modify fun u => ((u.noteBound root).bindTerm .ty root val).overlook overlooks

def bindCompTy (n : ℕ) (v : CompTyVar) (val : Struct CompTy) (depth : ℕ) : Act Unit := do
  let root ← find .comp v
  let u ← Run.get
  refuseDataFreeCycle (u.compReaches ⟨.comp, root⟩ n val.1) depth
  weaken n .comp root (Term.thunk val.1)
  let overlooks := u.core.Overlooks .comp root ⟨.comp, val.1⟩
  Run.modify fun u => (u.bindTerm .comp root val).overlook overlooks

def weakenRow (n : ℕ) (root : RowVar) (spine : Row) : Act Unit :=
  weaken n .row root (Term.record spine)

def inheritWeak (s : Srt) (v : ℕ) : Option WeakSource → Act Unit
  | some source => Run.modify fun u => u.markWeakVar s v source
  | none => pure ()

def bindRow (n : ℕ) (v : RowVar) (val : Struct Row) (weak : Option WeakSource) (depth : ℕ) :
    Act Unit := do
  inheritWeak .row v weak
  let u ← Run.get
  if ← Run.lift (u.rowOccurs n v val.1 depth) then Run.fail .recursiveRow
  else do
    let r ← find .row v
    admitRow n r val.1 depth
    weakenRow n r val.1
    Run.modify fun u => u.bindTerm .row r val

end Act

/-! ## The algorithm -/

namespace Unifier

def resolveCompTy (u : Unifier) (t : CompTy) : CompTy :=
  match u.resolve t with
  | .ret g a => .ret (u.resolveGrade g) a
  | t => t

def admitsUnit (u : Unifier) : Ty → Bool
  | .unit => true
  | .var v => (u.kinded v).kind.admits .unit
  | _ => false

def clashOnTail (left right : List Label × Option RowVar) : Bool :=
  match left.2, right.2 with
  | some lt, some rt => decide (lt = rt) && decide (¬ left.1.Perm right.1)
  | _, _ => false

end Unifier

namespace Solve
open Act

def mismatch (expected actual : Option α) (error : α → α → TypeErrorKind) : Solve Unit :=
  match expected, actual with
  | some expected, some actual => Run.fail (error expected actual)
  | _, _ => Run.stuck

/-- Fill in the alternatives of a rejected label from the rows on entry: those
of the record whose own labels lack it. -/
def nameAlternatives (n : ℕ) (a b : Row) : Except TypeErrorKind Unit → Solve Unit
  | .error (.rowExtraField label []) => do
      let u ← unifier
      match u.rowSpine n a with
      | none => Run.stuck
      | some (ls, _) =>
        let names := ls.map Label.shown
        if label.shown ∈ names then
          match u.rowSpine n b with
          | none => Run.stuck
          | some (ls, _) => Run.fail (.rowExtraField label (ls.map Label.shown))
        else Run.fail (.rowExtraField label names)
  | result => Run.ofExcept result

def unifyGrade (a b : Grade) : Solve Bool := act (Run.act fun u => u.unifyGrade a b)

mutual

def unifyTyInner : ℕ → Ty → Ty → ℕ → Solve Unit
  | 0, _, _, _ => Run.stuck
  | n + 1, a, b, depth => do
      if ← assumed a b depth then pure ()
      else
        let u ← unifier
        match view (u.resolve a), view (u.resolve b) with
        | .inl ai, .inl bi => act (uniteTys ai bi)
        | .inl vi, .inr val => do
            act (inheritWeak .ty vi (u.weakVar b))
            act (bindTy n vi val depth)
        | .inr val, .inl vi => do
            act (inheritWeak .ty vi (u.weakVar a))
            act (bindTy n vi val depth)
        | .inr a, .inr b => do
            let depth ← deeper depth
            match a.1, b.1 with
            | .unit, .unit | .bool, .bool | .int, .int | .float, .float | .string, .string
            | .bytes, .bytes => pure ()
            | .list a1, .list b1 | .map a1, .map b1 => unifyTyInner n a1 b1 depth
            | .handle ga a1, .handle gb b1 => do
                if ← unifyProducers n ga a1 gb b1 depth then pure ()
                else
                  let u ← unifier
                  mismatch (u.applyTy n (.handle ga a1)) (u.applyTy n (.handle gb b1)) .tyMismatch
            | .record r1, .record r2 | .variant r1, .variant r2 => do
                let r ← Run.attempt (unifyRowInner n r1 r2 depth)
                nameAlternatives n r1 r2 r
            | .thunk a1, .thunk b1 => unifyCompTyInner n a1 b1 depth
            | a, b => Run.fail (.tyMismatch a b)

def unifyRowInner : ℕ → Row → Row → ℕ → Solve Unit
  | 0, _, _, _ => Run.stuck
  | n + 1, a, b, depth => do
      let u ← unifier
      unifyRowLoop n (u.resolve a) (u.resolve b) (u.weakVar a) (u.weakVar b) depth

def unifyRowLoop : ℕ → Row → Row → Option WeakSource → Option WeakSource → ℕ → Solve Unit
  | 0, _, _, _, _, _ => Run.stuck
  | n + 1, a, b, aWeak, bWeak, depth =>
    match view a, view b with
    | .inl ai, .inl bi => act (Run.modify fun u => u.uniteRows ai bi)
    | .inl vi, .inr b => act (bindRow n vi b bWeak depth)
    | .inr a, .inl vi => act (bindRow n vi a aWeak depth)
    | .inr a, .inr b =>
      match a.1, b.1 with
      | .empty, .empty => pure ()
      | .empty, .extend l _ _ => Run.fail (.rowExtraField l [])
      | .extend l _ _, .empty => Run.fail (.rowMissingField l.shown)
      | .extend l1 t1 r1, .extend l2 t2 r2 => do
          if l1 = l2 then
            let d ← deeper depth
            unifyTyInner n t1 t2 d
            let u ← unifier
            unifyRowLoop n (u.resolve r1) (u.resolve r2) none none depth
          else if l1.isField ≠ l2.isField then
            Run.fail (.tyMismatch (.record (.extend l1 t1 .empty))
              (.record (.extend l2 t2 .empty)))
          else
            let u ← unifier
            match u.rowSpine n r1, u.rowSpine n r2 with
            | some (left, leftTail), some (right, rightTail) =>
              if Unifier.clashOnTail (l1 :: left, leftTail) (l2 :: right, rightTail) then
                Run.fail .recursiveRow
              else
                -- Rémy's rewrite: each row continues with the other's label.
                let rho ← act (Run.act fun u => u.fresh .row)
                unifyRowInner n r1 (.extend l2 t2 (.var rho)) depth
                unifyRowInner n (.extend l1 t1 (.var rho)) r2 depth
            | _, _ => Run.stuck
      | .var _, _ | _, .var _ => Run.stuck

/-- Preserve the capability to be `Unit` across a grade class, even after a
payload error: where a payload may still become `Unit`, it is solved first. -/
def unifyProducers : ℕ → Grade → Ty → Grade → Ty → ℕ → Solve Bool
  | 0, _, _, _, _, _ => Run.stuck
  | n + 1, ga, a, gb, b, depth => do
      let u ← unifier
      let ta := u.resolve a
      let tb := u.resolve b
      let ga := u.resolveGrade ga
      let gb := u.resolveGrade gb
      let aUnit := u.admitsUnit ta
      let bUnit := u.admitsUnit tb
      if (ga = .output ∧ bUnit = false) ∨ (gb = .output ∧ aUnit = false) then pure false
      else
        let unitVariable := (aUnit && ta.asVar.isSome) || (bUnit && tb.asVar.isSome)
        if ga ≠ .value ∧ gb ≠ .value ∧ (unitVariable = true ∨ aUnit ≠ bUnit) then do
          unifyTyInner n a b depth
          unifyGrade ga gb
        else do
          if ← unifyGrade ga gb then do
            unifyTyInner n a b depth
            pure true
          else pure false

def unifyCompTyInner : ℕ → CompTy → CompTy → ℕ → Solve Unit
  | 0, _, _, _ => Run.stuck
  | n + 1, a, b, depth => do
      if ← assumed a b depth then pure ()
      else
        let u ← unifier
        match view (u.resolveCompTy a), view (u.resolveCompTy b) with
        | .inl ai, .inl bi => act (Run.modify fun u => u.uniteTerms .comp ai bi)
        | .inl vi, .inr val => do
            act (inheritWeak .comp vi (u.weakVar b))
            act (bindCompTy n vi val depth)
        | .inr val, .inl vi => do
            act (inheritWeak .comp vi (u.weakVar a))
            act (bindCompTy n vi val depth)
        | .inr a, .inr b => do
            let depth ← deeper depth
            match a.1, b.1 with
            | .ret ga ta, .ret gb tb => do
                match ← Run.attempt (unifyProducers n ga ta gb tb depth) with
                | .ok true => pure ()
                | .error .typeTooDeep => Run.fail .typeTooDeep
                | .error (.cyclicType via) => Run.fail (.cyclicType via)
                | .error (.kindMismatch found kind witness) =>
                  Run.fail (.kindMismatch found kind witness)
                | .ok false | .error _ => do
                    let u ← unifier
                    mismatch (u.applyCompTy n (.ret ga ta)) (u.applyCompTy n (.ret gb tb))
                      .compTyMismatch
            | .func a1 b1, .func a2 b2 => do
                unifyTyInner n a1 a2 depth
                unifyCompTyInner n b1 b2 depth
            | a, b => Run.fail (.compTyMismatch a b)

end

end Solve

/-! ## Entry points -/

namespace Unifier

/-- A unification from no assumed pair. -/
def solved (x : Solve Unit) (u : Unifier) : Option (Except TypeErrorKind Unit × Unifier) :=
  (x ⟨u, Pairs.new⟩).map fun r => (r.1, r.2.u)

def unifyTy (n : ℕ) (a b : Ty) : Act Unit := solved (Solve.unifyTyInner n a b 0)

def unifyCompTy (n : ℕ) (a b : CompTy) : Act Unit := solved (Solve.unifyCompTyInner n a b 0)

def unifyRow (n : ℕ) (a b : Row) : Act Unit :=
  solved do
    let r ← Run.attempt (Solve.unifyRowInner n a b 0)
    Solve.nameAlternatives n a b r

end Unifier

end Ral.Typecheck
