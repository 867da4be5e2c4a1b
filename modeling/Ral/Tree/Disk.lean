import Ral.Authority.Stack
import Ral.Path.Position
import Ral.Path.Walk

/-! # The ignore rules of a tree walk

Which of an entry's ancestors' files apply to it, and in what order. Nothing here opens anything.
-/

namespace Ral.Tree
open Ral.Path

section

inductive Match
  | none
  | ignore
  | whitelist
deriving DecidableEq

def Match.or : Match → Match → Match
  | .none, other => other
  | found, _ => found

/-- The matcher of ignore files: what a file's text compiles to, and what that says of a path. -/
class Gitignore where
  Compiled : Type
  compile : Option (List UInt8) → Compiled
  isEmpty : Compiled → Bool
  matched : Compiled → List Name → Bool → Match

variable [Gitignore]

structure Files where
  ignore : Option (List UInt8)
  gitignore : Option (List UInt8)
  exclude : Option (List UInt8)

/-- The rules one directory adds, `depth` names below the filesystem root. -/
structure Layer where
  depth : ℕ
  repository : Bool
  ignore : Gitignore.Compiled
  gitignore : Gitignore.Compiled
  exclude : Gitignore.Compiled

def Layer.new (depth : ℕ) (repository : Bool) (files : Files) : Layer where
  depth := depth
  repository := repository
  ignore := Gitignore.compile files.ignore
  gitignore := Gitignore.compile files.gitignore
  exclude := Gitignore.compile files.exclude

/-- The names from the filesystem root to where the walk stands, and the layers there, the deepest
last. -/
structure Rules where
  names : List Name
  base : ℕ
  layers : List Layer

/-- What the layers looked at so far say of an entry. -/
structure Sought where
  ignore : Match
  gitignore : Match
  exclude : Match
  bounded : Bool

namespace Rules

def new (names : List Name) : Rules := ⟨names, names.length, []⟩

variable (rules : Rules)

def depth : ℕ := rules.names.length

def inRepository : Bool := rules.layers.any Layer.repository

def push (layer : Layer) : Rules := { rules with layers := rules.layers ++ [layer] }

def enter (name : Name) (layer : Layer) : Rules :=
  { rules with names := rules.names ++ [name], layers := rules.layers ++ [layer] }

def leave : Rules where
  names := if rules.base < rules.names.length then rules.names.dropLast else rules.names
  base := rules.base
  layers := rules.layers.dropLast

/-- What a layer's matcher says, where nothing shallower than it has been said. -/
def ask (compiled : Gitignore.Compiled) (path : List Name) (isDir : Bool) (found : Match) : Match :=
  if found = .none ∧ Gitignore.isEmpty compiled = false then Gitignore.matched compiled path isDir else found

def seek (name : Name) (isDir inRepository : Bool) (sought : Sought) (layer : Layer) : Sought :=
  let path := rules.names.drop layer.depth ++ [name]
  let within := inRepository && !sought.bounded
  { ignore := ask layer.ignore path isDir sought.ignore
    gitignore := if within then ask layer.gitignore path isDir sought.gitignore else sought.gitignore
    exclude := if within then ask layer.exclude path isDir sought.exclude else sought.exclude
    bounded := sought.bounded || layer.repository }

/-- Whether the rules skip an entry: the deepest `.ignore` that matches decides, then the deepest
`.gitignore`, then `info/exclude`, and failing all whether it is hidden. -/
def skips (name : Name) (isDir hidden : Bool) : Bool :=
  let sought := rules.layers.reverse.foldl (rules.seek name isDir rules.inRepository) ⟨.none, .none, .none, false⟩
  match (sought.ignore.or sought.gitignore).or sought.exclude with
  | .ignore => true
  | .whitelist => false
  | .none => hidden

end Rules

end

/-! ## What a tree walk reads

A filesystem at rest, with what its listings, stats and reads come to, and the region that judges
every one of them.
-/

open Ral.Path Ral.Authority

/-- Whether a directory can be listed, whether an entry can be stated once listed, and what a file
holds. -/
structure Disk extends FileSystem where
  listable : ObjectId → Except IoError Unit
  stated : ObjectId → Name → Except IoError Unit
  content : ObjectId → Except IoError (List UInt8)

/-- What the walk opens for its contents: a directory listed, or a file read. -/
inductive Access
  | listed (dir : Dir)
  | read (file : Located)

def Access.trace : Access → Trace
  | .listed dir => dir.trace
  | .read file => file.trace

/-- A program that reads files by name, one after another. -/
inductive Reads (α : Type)
  | done (a : α)
  | read (path : PathBuf) (next : Except IoError String → Reads α)

/-- Git's discovery: the `info/exclude` of the repository whose `.git` is at a path, a directory or
a pointer file. -/
class Git where
  infoExclude : PathBuf → Bool → Reads (Option PathBuf)

/-- A tree walk, as far as it is told what to skip. -/
structure Walk where
  root : PathBuf
  ignores : Bool
  maxDepth : Option ℕ
  keep : Option (PathBuf → Bool)
  sameFileSystem : Bool
  followLinks : Bool

/-- A walk and the region it may read, on a disk, under a scope: what each poll in turn finds. -/
structure Granted (Cancellation : Type) where
  disk : Disk
  walk : Walk
  region : ReadRegion
  scope : ℕ → Option Cancellation

/-! ## Listings -/

section Listing
variable [Host]

def openDir (fs : FileSystem) (dir : Dir) (name : Name) : Except IoError Dir :=
  match fs.step dir.node.held name with
  | .error e => .error e
  | .ok child =>
    if h : child.kind = .dir then
      .ok {
        node := .under child.id dir.node
        trace := (Cursor.beneath dir).traceStep child
        dirs := by
          intro s hs
          rcases List.mem_append.mp hs with hs | hs
          · exact (Cursor.beneath dir).steps_dirs s hs
          · rw [List.mem_singleton.mp hs]
            exact h }
    else .error (.of .notADirectory "")

def locate (fs : FileSystem) (dir : Dir) (name : Name) (mode : Mode) : Except IoError Located :=
  match dir.target fs name mode with
  | .error e => .error e
  | .ok l =>
    match l.leaf with
    | .absent _ => .error (.of .notFound "")
    | _ => .ok l

def walkDir (fs : FileSystem) (path : PathBuf) : Except IoError Dir :=
  match Ral.Path.walk fs path .enter with
  | .error e => .error e
  | .ok l =>
    match l.intoDir with
    | some dir => .ok dir
    | none => .error (.of .notADirectory "")

end Listing

/-- An entry of a listing, and what its stat found. -/
structure Item where
  name : Name
  seen : Except IoError (Kind × ObjectId)

/-- The entries of a directory in name order, each stated, nothing followed. -/
def Disk.readDir (disk : Disk) (dir : Dir) : Except IoError (List Item) :=
  (disk.listable dir.node.held).map fun _ =>
    ((disk.entries dir.node.held).mergeSort fun a b => a.1 ≤ b.1).map fun e =>
      ⟨e.1, (disk.stated dir.node.held e.1).map fun _ => (disk.kind e.2, e.2)⟩

namespace Granted

variable {Cancellation : Type} (g : Granted Cancellation) [Host]

def judges (trace : Trace) : Bool := (g.region.withheld (.access trace)).isOk

/-- A listing entry, judged by what the listing saw of it; one it did not see by its position alone. -/
def admits (dir : Dir) (item : Item) : Bool :=
  match item.seen with
  | .ok (kind, id) => (g.region.withheld (.listed ⟨dir.trace, ⟨item.name, id, kind⟩⟩)).isOk
  | .error _ => (g.region.withheld (.position (dir.trace.real.child item.name))).isOk

def denied : IoError := .of .permissionDenied ""

/-! ## Reading -/

/-- What is read is noted. -/
abbrev Noting (α : Type) := StateM (List Access) α

def slurp (file : Located) : Noting (Except IoError (List UInt8)) := fun log =>
  (match file.leaf with
    | .held _ id => g.disk.content id
    | .dir _ => .error (.of .other "")
    | .absent _ => .error (.of .notFound ""),
  log ++ [.read file])

def readJudged (located : Except IoError Located) : Noting (Except IoError (List UInt8)) :=
  match located with
  | .error e => pure (.error e)
  | .ok l => if g.judges l.trace then g.slurp l else pure (.error denied)

def readNamed (path : PathBuf) : Noting (Except IoError (List UInt8)) :=
  g.readJudged (Ral.Path.walk g.disk.toFileSystem path .follow)

def readText (path : PathBuf) : Noting (Except IoError String) := do
  let bytes ← g.readNamed path
  pure (bytes.bind fun bytes =>
    match String.fromUTF8? ⟨bytes.toArray⟩ with
    | some text => .ok text
    | none => .error (.of .other ""))

def runReads {α : Type} : Reads α → Noting α
  | .done a => pure a
  | .read path next => do
      let text ← g.readText path
      runReads (next text)

end Granted

end Ral.Tree
