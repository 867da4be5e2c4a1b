import Mathlib.Order.WithBot
import Ral.Path.Position

/-! # Traces, exclusions and how they match

A trace is the transcript of a walk: every object it opened with its identity,
then the names it could not enter. An exclusion holds one trace for the object
at its name and, where that was a link, one for what the link reached. It
matches a subject by position, and otherwise by the identities the subject's
own trace passed.
-/

namespace Ral.Path

/-! ## Objects and steps -/

/-- What every name of an object shares and no other object has. -/
structure ObjectId where
  dev : ℕ
  ino : ℕ
deriving DecidableEq

instance : LinearOrder ObjectId :=
  LinearOrder.lift' (fun i => toLex (i.dev, i.ino)) fun a b h => by
    cases a; cases b; simpa using h

inductive Kind
  | file
  | dir
  | symlink
  | other
deriving DecidableEq

def Kind.rank : Kind → ℕ
  | .file => 0
  | .dir => 1
  | .symlink => 2
  | .other => 3

instance : LinearOrder Kind :=
  LinearOrder.lift' Kind.rank fun a b => by cases a <;> cases b <;> simp [Kind.rank]

/-- One component a walk opened. -/
structure Step where
  name : Name
  id : ObjectId
  kind : Kind
deriving DecidableEq

instance : LinearOrder Step :=
  LinearOrder.lift' (fun s => toLex (s.name, toLex (s.id, s.kind))) fun a b h => by
    cases a; cases b; simpa using h

/-! ## Traces -/

/-- A trace descends through directories alone. -/
structure Trace where
  root : List Name
  rootId : ObjectId
  steps : List Step
  tail : List Name
  passed : List RealPath
  walkable : (∀ s ∈ steps.dropLast, s.kind = .dir) ∧
    (tail = [] ∨ ∀ s ∈ steps.getLast?, s.kind = .dir)
deriving DecidableEq

namespace Trace

def real (t : Trace) : RealPath := ⟨t.root, t.steps.map Step.name ++ t.tail⟩

def kind (t : Trace) : Option Kind :=
  if t.tail = [] then some ((t.steps.getLast?.map Step.kind).getD .dir) else none

def lastId (t : Trace) : ObjectId := (t.steps.getLast?.map Step.id).getD t.rootId

def leafId (t : Trace) : Option ObjectId := if t.tail = [] then some t.lastId else none

def spineIds (t : Trace) : List ObjectId := t.rootId :: t.steps.map Step.id

end Trace

instance : LinearOrder Trace :=
  LinearOrder.lift'
    (fun t => toLex (t.root, toLex (t.rootId, toLex (t.steps, toLex (t.tail, t.passed)))))
    fun a b h => by cases a; cases b; simpa using h

/-- A listing's record of one entry: the parent's trace and one step. -/
structure Listed where
  parent : Trace
  step : Step

def Listed.real (l : Listed) : RealPath := l.parent.real.child l.step.name

/-! ## Subjects -/

/-- What a rule is asked about. -/
inductive Subject
  | access (trace : Trace)
  | listed (entry : Listed)
  | position (real : RealPath)
  | everywhere

/-- The position the subject is at; `none` for everywhere, which is none. -/
def Subject.position? : Subject → Option RealPath
  | .access trace => some trace.real
  | .listed entry => some entry.real
  | .position real => some real
  | .everywhere => none

/-! ## Exclusions -/

/-- An exclusion's trace. The handle that keeps its object alive judges nothing. -/
structure Hold where
  trace : Trace
deriving DecidableEq

instance : LinearOrder Hold :=
  LinearOrder.lift' Hold.trace fun a b h => by cases a; cases b; simpa using h

/-- The object at the name as named and, where that was a link, what it reached. -/
structure Excluded where
  named : Hold
  target : Option Hold
deriving DecidableEq

def Excluded.key (e : Excluded) : Hold ×ₗ WithBot Hold := toLex (e.named, e.target)

instance : LinearOrder Excluded :=
  LinearOrder.lift' Excluded.key fun a b h => by
    cases a; cases b
    exact congrArg (fun x => Excluded.mk (ofLex x).1 (ofLex x).2) h

def Excluded.holds (e : Excluded) : List Hold := e.named :: e.target.toList

/-- What an access passed: the objects it opened, the root first, and the names
it spelled below the root. -/
structure Passed where
  ids : List ObjectId
  names : List Name

def Passed.of (t : Trace) : Passed := ⟨t.spineIds, t.steps.map Step.name ++ t.tail⟩

def Passed.listed (l : Listed) : Passed :=
  let passed := Passed.of l.parent
  ⟨passed.ids ++ [l.step.id], passed.names ++ [l.step.name]⟩

def Subject.passed? : Subject → Option Passed
  | .access trace => some (Passed.of trace)
  | .listed entry => some (Passed.listed entry)
  | .position _ | .everywhere => none

variable [Host]

/-- At `position` or beneath it, names as stored; never true of everywhere. -/
def Subject.beneath (s : Subject) (position : RealPath) : Bool :=
  s.position?.any fun p => position.contains p

/-- `rule`'s names are a prefix of `access`'s under the collision key, the
whole of them under `exact`. -/
def namesFit (rule access : List Name) (depth : Depth) : Bool :=
  (match depth with
    | .within => rule.length ≤ access.length
    | .exact => rule.length = access.length) &&
  (rule.zip access).all fun (r, a) => encodedCollisionKey r = encodedCollisionKey a

def Passed.reaches (rule access : Passed) (depth : Depth) : Bool :=
  (rule.ids.zipIdx.drop 1).any fun (id, k) =>
    access.ids.zipIdx.any fun (other, j) =>
      other = id && namesFit (rule.names.drop k) (access.names.drop j) depth

/-- By position, else by identity. -/
def Hold.matched (hold : Hold) (subject : Subject) (depth : Depth) : Option MatchedBy := do
  let position ← subject.position?
  (hold.trace.real.matchedBy position depth).or do
    let access ← subject.passed?
    if (Passed.of hold.trace).reaches access depth then some .identity else none

def Excluded.matched (e : Excluded) (subject : Subject) (depth : Depth) : Option MatchedBy :=
  (e.holds.filterMap fun hold => hold.matched subject depth).min?

end Ral.Path
