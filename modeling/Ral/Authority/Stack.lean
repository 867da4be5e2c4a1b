import Ral.Authority.Scopes

/-! # The grant stack and its judgments

A layer bundles one resolved policy per effect, and a stack folds its layers by
meet on every question. The read region of a layer also holds the places the
exec meet over it and the layers beneath it runs; the baseline joins the system
reads at the end. Running is the exec table and then what running reads.
-/

namespace Ral.Authority
open Ral.Path

/-! ## Layers -/

inductive FsOp
  | read
  | write
deriving DecidableEq

/-- What a layer reads and what it writes, each against every exclusion. -/
structure FsLayer where
  read : FsRules
  write : FsRules

def FsLayer.new (read write : List (GrantPath Extent)) (deny : List (GrantPath Excluded)) :
    FsLayer :=
  let write := (write.map FsAllow.under).toFinset
  let denies := (deny.map FsDeny.mk).toFinset
  ⟨⟨(read.map FsAllow.under).toFinset ∪ write, denies⟩, ⟨write, denies⟩⟩

def FsLayer.table (l : FsLayer) : FsOp → FsRules
  | .read => l.read
  | .write => l.write

inductive EditorVerb
  | read
  | write
  | tui
deriving DecidableEq

inductive ShellVerb
  | chdir
  | detach
deriving DecidableEq

inductive Net
  | offline
deriving DecidableEq

inductive Gpu
  | withheld
deriving DecidableEq

/-- One layer in force; `none` on an axis is no opinion. -/
structure GrantLayer where
  fs : Option FsLayer
  exec : Option ExecRules
  net : Option Net
  gpu : Option Gpu
  editor : Option (Finset EditorVerb)
  shell : Option (Finset ShellVerb)

/-- Ambient authority: no axis attenuated. -/
def GrantLayer.root : GrantLayer := ⟨none, none, none, none, none, none⟩

/-- A verb a layer may withhold. -/
inductive Flag
  | editor (verb : EditorVerb)
  | shell (verb : ShellVerb)

/-- Whether a layer lists the verb; `none` abstains. -/
def Flag.vote (layer : GrantLayer) : Flag → Option Bool
  | .editor verb => layer.editor.map fun verbs => decide (verb ∈ verbs)
  | .shell verb => layer.shell.map fun verbs => decide (verb ∈ verbs)

/-- The ambient root at index 0, the innermost grant last. -/
structure GrantStack where
  layers : List GrantLayer

namespace GrantStack

def root : GrantStack := ⟨[.root]⟩

def push (grants : GrantStack) (layer : GrantLayer) : GrantStack := ⟨grants.layers ++ [layer]⟩

def exec (grants : GrantStack) : List ExecRules := grants.layers.filterMap GrantLayer.exec

def net (grants : GrantStack) : List Net := grants.layers.filterMap GrantLayer.net

def netVeto (grants : GrantStack) : Option Net := grants.net.head?

def gpu (grants : GrantStack) : List Gpu := grants.layers.filterMap GrantLayer.gpu

def permits (grants : GrantStack) (flag : Flag) : Bool :=
  grants.layers.all fun l => flag.vote l != some false

end GrantStack

/-- Host system reads and boot-image protection, outside the grant stack. -/
structure Baseline where
  reads : List FsAllow
  image : Option Trace
  pinned : List (ObjectId × String)

def Baseline.protectedAs (b : Baseline) (id : ObjectId) : Option String :=
  b.pinned.findSome? fun (held, name) => if held = id then some name else none

/-! ## The exec meet -/

section Judgments
variable [Host]

/-- The stack's exec authority; `none` when no layer holds an exec opinion. -/
def rules (grants : GrantStack) : Option ExecRules :=
  match grants.exec with
  | [] => none
  | first :: rest => some (rest.foldl Table.meet first)

def ExecAllow.place : ExecAllow → Option FsAllow
  | .dir ⟨written, .everywhere⟩ => some (.under ⟨written, .everywhere⟩)
  | .dir ⟨_, .under place _⟩ => some (.runPlace place)
  | .file _ place _ => some (.runPlace place)
  | .any => none
  | .tool _ => none

def ExecRules.places (r : ExecRules) : Finset FsAllow :=
  r.allows.biUnion fun a => a.place.toFinset

/-! ## The fs fold -/

/-- `acc` met with `next`, the first `next` standing alone. -/
def meetOnto {A D S : Type} [Allows A S] [DecidableEq A] [DecidableEq D]
    (acc : Option (Table A D)) (next : Table A D) : Option (Table A D) :=
  some (match acc with
    | some held => held.meet next
    | none => next)

/-- A table, and the same with each layer's run places joined. -/
structure Folded where
  plain : FsRules
  placed : FsRules

structure FoldState where
  run : Option ExecRules
  plain : Option FsRules
  placed : Option FsRules

def FoldState.start : FoldState := ⟨none, none, none⟩

def foldLayer (op : FsOp) (acc : FoldState) (layer : GrantLayer) : FoldState :=
  let run := match layer.exec with
    | some exec => meetOnto acc.run exec
    | none => acc.run
  match layer.fs with
  | none => { acc with run }
  | some fs =>
    let table := fs.table op
    let places := (run.map ExecRules.places).getD ∅
    ⟨run, meetOnto acc.plain table, meetOnto acc.placed (table.join ⟨places, ∅⟩)⟩

def rposition {α : Type} (p : α → Bool) (l : List α) : Option ℕ :=
  (l.reverse.findIdx? p).map fun i => l.length - 1 - i

def withSystemReads (op : FsOp) (baseline : Baseline) (met : FsRules) : FsRules :=
  match op with
  | .read => met.join ⟨baseline.reads.toFinset, ∅⟩
  | .write => met

/-- Both tables for `op` in one pass over the layers; `none` exactly when no
layer holds an fs opinion. -/
def fold (grants : GrantStack) (op : FsOp) (baseline : Baseline) : Option Folded := do
  let last ← rposition (fun l => l.fs.isSome) grants.layers
  let acc := (grants.layers.take (last + 1)).foldl (foldLayer op) .start
  let plain ← acc.plain
  let placed ← acc.placed
  return ⟨withSystemReads op baseline plain, withSystemReads op baseline placed⟩

def region (grants : GrantStack) (op : FsOp) (baseline : Baseline) : Option FsRules :=
  (fold grants op baseline).map Folded.plain

def runningRegion (grants : GrantStack) (baseline : Baseline) : Option FsRules :=
  (fold grants .read baseline).map Folded.placed

/-! ## Reading and writing -/

/-- The read and running regions folded once. -/
structure ReadRegion where
  folded : Option Folded

/-- A permit or an exclusion of the plain table is final; only a missing
allowance asks the placed one. -/
def ReadRegion.withheld (r : ReadRegion) (s : Subject) : Except (Withheld FsDeny) Unit :=
  match r.folded with
  | none => .ok ()
  | some ⟨plain, placed⟩ =>
    match plain.withheld s with
    | none => .ok ()
    | some .missingAllowance =>
      match placed.withheld s with
      | none => .ok ()
      | some why => .error why
    | some why => .error why

/-- Why a judgment refused: the pinned-binary veto, or the stack's. -/
inductive Refused
  | guarded (name : String)
  | withheld (why : Withheld FsDeny)

namespace GrantStack

def readRegion (grants : GrantStack) (baseline : Baseline) : ReadRegion :=
  ⟨fold grants .read baseline⟩

def read (grants : GrantStack) (baseline : Baseline) (trace : Trace) :
    Except (Withheld FsDeny) Unit :=
  (grants.readRegion baseline).withheld (.access trace)

def write (grants : GrantStack) (baseline : Baseline) (trace : Trace) :
    Except (Withheld FsDeny) Unit :=
  match (region grants .write baseline).bind fun r => r.withheld (.access trace) with
  | none => .ok ()
  | some why => .error why

def refusalFs (grants : GrantStack) (baseline : Baseline) (op : FsOp) (trace : Trace) :
    Except Refused Unit :=
  match op with
  | .read => (grants.read baseline trace).mapError .withheld
  | .write =>
    match trace.leafId.bind baseline.protectedAs with
    | some name => .error (.guarded name)
    | none => (grants.write baseline trace).mapError .withheld

def readNotExcluded (grants : GrantStack) (baseline : Baseline) (trace : Trace) :
    Except (Withheld FsDeny) Unit :=
  match (region grants .read baseline).bind fun r => r.withheld (.access trace) with
  | some (.excluded scope matchedBy) => .error (.excluded scope matchedBy)
  | _ => .ok ()

end GrantStack

/-! ## Running -/

/-- A bundled tool, or a host file by what the walk held of it. -/
inductive Program
  | tool (name : String)
  | file (arg0 : String) (located : Trace)

def Program.subject : Program → ExecSubject
  | .tool name => .tool name
  | .file _ located => .program (.access located)

/-- A program the stack admitted, and the table that admitted it. -/
structure Admitted where
  program : Program
  rules : Option ExecRules

inductive ExecDenial
  | run (why : Withheld ExecDeny)
  | read (why : Withheld FsDeny)

def runWithheld (rules : Option ExecRules) (s : ExecSubject) : Except ExecDenial Unit :=
  match rules.bind fun r => r.withheld s with
  | none => .ok ()
  | some why => .error (.run why)

namespace GrantStack

/-- A bundled tool runs the host image, which only an fs exclusion withholds. -/
def toolRead (grants : GrantStack) (baseline : Baseline) : Except (Withheld FsDeny) Unit :=
  match baseline.image with
  | none => .ok ()
  | some image => grants.readNotExcluded baseline image

/-- The exec table, then what running reads. -/
def admitProgram (grants : GrantStack) (baseline : Baseline) (program : Program) :
    Except (Program × ExecDenial) Admitted := do
  let rules := rules grants
  (runWithheld rules program.subject).mapError (program, ·)
  let read := match program with
    | .tool _ => grants.toolRead baseline
    | .file _ located => (grants.readRegion baseline).withheld (.access located)
  read.mapError (program, .read ·)
  return ⟨program, rules⟩

/-- Running a name a walk reached no object at. -/
def admitName (grants : GrantStack) (baseline : Baseline) (trace : Trace) :
    Except ExecDenial Unit := do
  runWithheld (rules grants) (.program (.access trace))
  (grants.read baseline trace).mapError .read

end GrantStack

/-! ## What a boundary asks -/

/-- A request the stack decides. -/
inductive Access
  | fs (op : FsOp) (trace : Trace)
  | shown (entry : Subject)
  | run (program : Program)
  | runName (trace : Trace)
  | flag (flag : Flag)
  | net
  | gpu

def GrantStack.permitted (grants : GrantStack) (baseline : Baseline) : Access → Bool
  | .fs op trace => (grants.refusalFs baseline op trace).isOk
  | .shown entry => ((grants.readRegion baseline).withheld entry).isOk
  | .run program => (grants.admitProgram baseline program).isOk
  | .runName trace => (grants.admitName baseline trace).isOk
  | .flag flag => grants.permits flag
  | .net => grants.netVeto.isNone
  | .gpu => grants.gpu.head?.isNone

end Judgments

end Ral.Authority
