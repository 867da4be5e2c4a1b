import Mathlib.Algebra.GroupWithZero.Nat
import Ral.Tree.Disk

/-! # The walk of a tree

Depth first in name order, on a stack of the directories entered, with the ignore rules of each.
-/

namespace Ral.Tree
open Ral.Path Ral.Authority

variable [Host] [Gitignore] [Git] {Cancellation : Type}

def join (path : PathBuf) (name : List UInt8) : PathBuf :=
  if path = [] ∨ path.getLast? = some separator then path ++ name else path ++ separator :: name

/-- An entry's name as the walk reached it: the root as given, then each entry's name. -/
structure Shown where
  root : PathBuf
  names : List Name
deriving DecidableEq

namespace Shown

def asPath (s : Shown) : PathBuf := s.names.foldl (fun path name => join path name.bytes) s.root

def child (s : Shown) (name : Name) : Shown := ⟨s.root, s.names ++ [name]⟩

end Shown

/-- Why a directory was not entered. -/
inductive Unentered
  | refused (e : IoError)
  | pruned

inductive Found
  | seen (stat : Kind)
  /-- Listed, then unstatable; or the root, where it cannot be walked or the region refuses it. -/
  | unseen (e : IoError)
  | unentered (stat : Kind) (why : Unentered)

def Found.refused (stat : Kind) (e : IoError) : Found := .unentered stat (.refused e)

def Found.pruned (stat : Kind) : Found := .unentered stat .pruned

structure WalkEntry where
  shown : Shown
  depth : ℕ
  found : Found

/-- A directory entered, and what is left of it to yield. -/
structure Frame where
  dir : Dir
  id : ObjectId
  shown : Shown
  depth : ℕ
  items : List Item

/-- Which of the files the walk reads a directory lists. -/
structure Marks where
  ignore : Bool
  gitignore : Bool
  git : Bool

def dotIgnore : Name := Name.ofStr ".ignore"
def dotGitignore : Name := Name.ofStr ".gitignore"
def dotGit : Name := Name.ofStr ".git"

def Marks.note (marks : Marks) (name : Name) : Marks :=
  if name = dotIgnore then { marks with ignore := true }
  else if name = dotGitignore then { marks with gitignore := true }
  else if name = dotGit then { marks with git := true }
  else marks

/-- A walk under way: the directories entered, the deepest first, with its polls counted and what it
opened noted. -/
structure Entries where
  started : Bool
  rootId : Option ObjectId
  rules : Option Rules
  stack : List Frame
  polled : ℕ
  log : List Access

def hidden (name : Name) : Bool := name.bytes.head? = some dot

def namesNoDirectory (e : IoError) : Bool :=
  e.kind = .notFound || e.kind = .notADirectory || match e with
    | .looped _ => true
    | _ => false

namespace Granted

variable (g : Granted Cancellation)

/-- Before anything is asked of it. -/
def entries : Entries := ⟨false, none, none, [], 0, []⟩

/-! ## The layers -/

def readWhere (wanted : Bool) (read : Noting (Except IoError (List UInt8))) : Noting (Option (List UInt8)) :=
  if wanted then read.map Except.toOption else pure none

def readExclude (dotGit : Option (PathBuf × Bool)) : Noting (Option (List UInt8)) :=
  match dotGit with
  | none => pure none
  | some (at_, isDir) => g.runReads (Git.infoExclude at_ isDir) >>= fun
      | none => pure none
      | some file => (g.readNamed file).map Except.toOption

def assemble (depth : ℕ) (marks : Marks) (dotGit : Option (PathBuf × Bool)) (within : Bool)
    (read : Name → Noting (Except IoError (List UInt8))) : Noting Layer := do
  let ignore ← readWhere marks.ignore (read dotIgnore)
  let gitignore ← readWhere (marks.gitignore && within) (read dotGitignore)
  let exclude ← g.readExclude dotGit
  pure (Layer.new depth dotGit.isSome ⟨ignore, gitignore, exclude⟩)

def dotGitFound (at_ : RealPath) (located : Except IoError Located) : Option (PathBuf × Bool) :=
  match located with
  | .error _ => none
  | .ok l => if g.judges l.trace then l.trace.kind.map fun kind => (at_.asPath, kind = .dir) else none

def dotGitIn (dir : Dir) : Option (PathBuf × Bool) :=
  g.dotGitFound (dir.trace.real.child dotGit) (locate g.disk.toFileSystem dir dotGit .follow)

def dotGitAt (real : RealPath) : Option (PathBuf × Bool) :=
  g.dotGitFound (real.child dotGit) (Ral.Path.walk g.disk.toFileSystem (real.child dotGit).asPath .follow)

def layer (rules : Rules) (dir : Dir) (marks : Marks) (named : Bool) : Noting Layer :=
  let dotGit := if marks.git then g.dotGitIn dir else none
  let within := dotGit.isSome || rules.inRepository
  let depth := rules.depth + if named then 1 else 0
  g.assemble depth marks dotGit within fun name =>
    g.readJudged (locate g.disk.toFileSystem dir name .follow)

def above (real : RealPath) (dotGit : Option (PathBuf × Bool)) (within : Bool) : Noting Layer :=
  g.assemble real.names.length ⟨true, true, true⟩ dotGit within fun name => g.readNamed (real.child name).asPath

/-- The directories above one, the nearest first. -/
def parents (real : RealPath) : List RealPath :=
  (real.names.inits.dropLast.reverse).map fun names => ⟨real.root, names⟩

def pushAll (nearest : Option ℕ) (rules : Rules) : List ((RealPath × Option (PathBuf × Bool)) × ℕ) → Noting Rules
  | [] => pure rules
  | ((real, dotGit), i) :: rest => do
      let layer ← g.above real dotGit (nearest.any fun n => i ≤ n)
      pushAll nearest (rules.push layer) rest

def ancestry (root : Dir) : Noting Rules :=
  let real := root.trace.real
  let above := (parents real).map fun real => (real, g.dotGitAt real)
  let nearest := above.findIdx? fun a => a.2.isSome
  g.pushAll nearest (Rules.new real.names) above.zipIdx.reverse

/-! ## Entering a directory -/

/-- The scope's stop, or nothing. -/
def poll (s : Entries) : Except Cancellation Unit × Entries :=
  match g.scope s.polled with
  | some stop => (.error stop, s)
  | none => (.ok (), { s with polled := s.polled + 1 })

def admitAll (dir : Dir) : List Item → List Item × Marks → Entries → Except Cancellation (List Item × Marks) × Entries
  | [], taken, s => (.ok taken, s)
  | item :: rest, (items, marks), s =>
    match g.poll s with
    | (.error stop, s) => (.error stop, s)
    | (.ok _, s) =>
      let items := if g.admits dir item then items ++ [item] else items
      admitAll dir rest (items, marks.note item.name) s

/-- List `dir`, take its ignore files, and make it the directory on top. The inner error is the
listing's own failure. -/
def enter (dir : Dir) (shown : Shown) (depth : ℕ) (name : Option Name) (s : Entries) :
    Except Cancellation (Except IoError Unit) × Entries :=
  let s := { s with log := s.log ++ [.listed dir] }
  match g.disk.readDir dir with
  | .error e => (.ok (.error e), s)
  | .ok listing =>
    match g.admitAll dir listing ([], ⟨false, false, false⟩) s with
    | (.error stop, s) => (.error stop, s)
    | (.ok (items, marks), s) =>
      let frame : Frame := ⟨dir, dir.trace.lastId, shown, depth, items⟩
      match s.rules with
      | none => (.ok (.ok ()), { s with stack := frame :: s.stack })
      | some rules =>
        let (layer, log) := g.layer rules dir marks name.isSome s.log
        let rules := match name with
          | some name => rules.enter name layer
          | none => rules.push layer
        (.ok (.ok ()), { s with rules := some rules, stack := frame :: s.stack, log })

/-! ## One entry -/

def skips (s : Entries) (name : Name) (isDir hidden : Bool) (shown : Shown) : Bool :=
  (s.rules.any fun rules => rules.skips name isDir hidden) || g.walk.keep.any fun keep => !keep shown.asPath

def beyond (s : Entries) (id : ObjectId) : Bool :=
  (g.walk.sameFileSystem && s.rootId.any fun root => root.dev ≠ id.dev) ||
    (g.walk.followLinks && s.stack.any fun frame => frame.id = id)

/-- A directory not pruned by depth: entered, or why not. -/
def descend (top : Frame) (name : Name) (stat : Kind) (id : ObjectId) (linked : Option (Except IoError Dir))
    (shown : Shown) (depth : ℕ) (s : Entries) : Except Cancellation Found × Entries :=
  let opened := match linked with
    | some opened => some opened
    | none => if g.beyond s id then none else some (openDir g.disk.toFileSystem top.dir name)
  match opened with
  | none => (.ok (.pruned stat), s)
  | some (.error e) => (.ok (.refused stat e), s)
  | some (.ok dir) =>
    if g.beyond s dir.trace.lastId then (.ok (.pruned stat), s)
    else if g.judges dir.trace then
      let stat := if stat = .symlink then .dir else stat
      match g.enter dir shown depth (some name) s with
      | (.error stop, s) => (.error stop, s)
      | (.ok (.ok ()), s) => (.ok (.seen stat), s)
      | (.ok (.error e), s) => (.ok (.refused stat e), s)
    else (.ok (.refused stat denied), s)

def linked (top : Frame) (name : Name) (stat : Kind) (enterable : Bool) : Option (Except IoError Dir) :=
  if g.walk.followLinks && enterable && stat = .symlink then
    some (top.dir.openDirViaLink g.disk.toFileSystem name)
  else none

def find (top : Frame) (name : Name) (stat : Kind) (id : ObjectId) (isDir enterable : Bool)
    (linked : Option (Except IoError Dir)) (shown : Shown) (depth : ℕ) (s : Entries) :
    Except Cancellation Found × Entries :=
  match isDir, linked with
  | false, some (.error e) =>
    if namesNoDirectory e then (.ok (.seen stat), s) else (.ok (.refused stat e), s)
  | false, _ => (.ok (.seen stat), s)
  | true, linked =>
    if enterable then g.descend top name stat id linked shown depth s else (.ok (.pruned stat), s)

/-- One entry of the directory on top, yielded unless something skips it. -/
def step (top : Frame) (item : Item) (s : Entries) : Except Cancellation (Option WalkEntry) × Entries :=
  let name := item.name
  let shown := top.shown.child name
  let depth := top.depth + 1
  match item.seen with
  | .error e =>
    if g.skips s name false (hidden name) shown then (.ok none, s)
    else (.ok (some ⟨shown, depth, .unseen e⟩), s)
  | .ok (stat, id) =>
    let enterable := g.walk.maxDepth.all fun max => depth < max
    let linked := g.linked top name stat enterable
    let isDir := stat = .dir || linked.any fun opened => opened.isOk
    if g.skips s name isDir (hidden name) shown then (.ok none, s)
    else
      match g.find top name stat id isDir enterable linked shown depth s with
      | (.error stop, s) => (.error stop, s)
      | (.ok found, s) => (.ok (some ⟨shown, depth, found⟩), s)

/-! ## The root -/

/-- A root that could not be entered: a file, a link to nothing, or a directory the walk could not
enter, with `why`. -/
def shallowRoot (why : IoError) : Found :=
  let followed := Ral.Path.walk g.disk.toFileSystem g.walk.root .follow
  let reached : Bool := match followed with
    | .ok l => l.trace.kind.isSome
    | .error e => e.kind ≠ .notFound
  let located := if reached then followed
    else match Ral.Path.walk g.disk.toFileSystem g.walk.root .noFollow with
      | .ok l => .ok l
      | .error _ => followed
  match located with
  | .error e => .unseen e
  | .ok l =>
    if g.judges l.trace then
      match l.trace.kind with
      | none => .unseen (.of .notFound "")
      | some .dir => .refused .dir why
      | some stat => .seen stat
    else .unseen denied

def enterRoot (dir : Dir) (s : Entries) : Except Cancellation Found × Entries :=
  if g.judges dir.trace then
    if g.walk.maxDepth = some 0 then (.ok (.pruned .dir), s)
    else
      let s := { s with rootId := some dir.trace.lastId }
      let s := if g.walk.ignores then
          let (rules, log) := g.ancestry dir s.log
          { s with rules := some rules, log }
        else s
      match g.enter dir ⟨g.walk.root, []⟩ 0 none s with
      | (.error stop, s) => (.error stop, s)
      | (.ok (.ok ()), s) => (.ok (.seen .dir), s)
      | (.ok (.error e), s) => (.ok (.refused .dir e), s)
  else (.ok (.unseen denied), s)

/-- The root: filtered by nothing, entered through a link. -/
def root (s : Entries) : Except Cancellation WalkEntry × Entries :=
  match g.poll s with
  | (.error stop, s) => (.error stop, s)
  | (.ok _, s) =>
    match walkDir g.disk.toFileSystem g.walk.root with
    | .error why => (.ok ⟨⟨g.walk.root, []⟩, 0, g.shallowRoot why⟩, s)
    | .ok dir =>
      match g.enterRoot dir s with
      | (.error stop, s) => (.error stop, s)
      | (.ok found, s) => (.ok ⟨⟨g.walk.root, []⟩, 0, found⟩, s)

/-! ## The entries, one call after another -/

/-- What one turn of the loop beneath the root comes to. -/
inductive Turn (Cancellation : Type)
  | ended
  | again (s : Entries)
  | yields (r : Except Cancellation WalkEntry) (s : Entries)

def turn (s : Entries) : Turn Cancellation :=
  match s.stack with
  | [] => .ended
  | top :: rest =>
    match top.items with
    | [] => .again { s with stack := rest, rules := s.rules.map Rules.leave }
    | item :: items =>
      match g.poll { s with stack := { top with items } :: rest } with
      | (.error stop, s) => .yields (.error stop) s
      | (.ok _, s) =>
        match g.step { top with items } item s with
        | (.error stop, s) => .yields (.error stop) s
        | (.ok none, s) => .again s
        | (.ok (some entry), s) => .yields (.ok entry) s

omit [Host] [Git] in
theorem poll_ok {s s' : Entries} {u : Unit} (h : g.poll s = (.ok u, s')) : s' = { s with polled := s.polled + 1 } := by
  unfold poll at h
  split at h
  · cases h
  · cases h
    rfl

omit [Host] [Git] in
theorem poll_error {s s' : Entries} {stop : Cancellation} (h : g.poll s = (.error stop, s')) : s' = s := by
  unfold poll at h
  split at h
  · cases h
    rfl
  · cases h

def Stops (stop : Cancellation) : Prop := ∃ n, g.scope n = some stop

omit [Host] [Git] in
theorem poll_stops {s s' : Entries} {stop : Cancellation} (h : g.poll s = (.error stop, s')) : g.Stops stop := by
  unfold poll at h
  split at h
  · next hscope =>
    cases h
    exact ⟨_, hscope⟩
  · cases h

theorem step_skipped {top : Frame} {item : Item} {s s' : Entries} (h : g.step top item s = (.ok none, s')) :
    s' = s := by
  unfold step at h
  dsimp only at h
  split at h
  · split at h
    · cases h
      rfl
    · cases h
  · split at h
    · cases h
      rfl
    · split at h <;> cases h

/-- A turn that yields nothing pops the directory on top, done with, or takes one entry of it and
skips it. -/
theorem turn_again {s s' : Entries} (h : g.turn s = .again s') : ∃ top rest, s.stack = top :: rest ∧
    (top.items = [] ∧ s' = { s with stack := rest, rules := s.rules.map Rules.leave } ∨
      ∃ item items, top.items = item :: items ∧
        s' = { s with stack := { top with items } :: rest, polled := s.polled + 1 } ∧
        g.step { top with items } item s' = (.ok none, s')) := by
  unfold turn at h
  split at h
  · cases h
  · next top rest hstack =>
    refine ⟨top, rest, hstack, ?_⟩
    split at h
    · next hitems =>
      cases h
      exact .inl ⟨hitems, rfl⟩
    · next item items hitems =>
      split at h
      · cases h
      · next hpoll =>
        split at h
        · cases h
        · next hstep =>
          cases h
          obtain rfl := g.step_skipped hstep
          exact .inr ⟨item, items, hitems, g.poll_ok hpoll, hstep⟩
        · cases h

end Granted

def Entries.left (s : Entries) : ℕ := (s.stack.map fun frame => frame.items.length + 1).sum

namespace Granted

variable (g : Granted Cancellation)

theorem turn_again_left {s s' : Entries} (h : g.turn s = .again s') : s'.left < s.left := by
  obtain ⟨top, rest, hstack, ⟨-, rfl⟩ | ⟨item, items, hitems, rfl, -⟩⟩ := g.turn_again h
  · simp [Entries.left, hstack]
  · simp [Entries.left, hstack, hitems]

set_option linter.unusedVariables false in
def advance (s : Entries) : Option (Except Cancellation WalkEntry) × Entries :=
  match h : g.turn s with
  | .ended => (none, s)
  | .again s' => advance s'
  | .yields r s' => (some r, s')
termination_by s.left
decreasing_by exact g.turn_again_left h

def next (s : Entries) : Option (Except Cancellation WalkEntry) × Entries :=
  let (result, s) := if s.started then g.advance s
    else
      let (r, s) := g.root { s with started := true }
      (some r, s)
  match result with
  | some (.error stop) => (some (.error stop), { s with stack := [] })
  | result => (result, s)

def calls : ℕ → List (Option (Except Cancellation WalkEntry)) × Entries
  | 0 => ([], entries)
  | n + 1 => ((calls n).1 ++ [(g.next (calls n).2).1], (g.next (calls n).2).2)

end Granted

end Ral.Tree
