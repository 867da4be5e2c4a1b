import Ral.Path.Spelling

/-! # The walk

The traversal engine on a filesystem at rest: a cursor holding the directories
it entered, the names still to take, and how to treat a link, the last name and
a name that is not there.
-/

namespace Ral.Path

/-! ## A filesystem at rest -/

/-- Its directories, links and what each name reads as: names `alike` find one entry. -/
structure FileSystem where
  rootId : ObjectId
  kind : ObjectId → Kind
  entries : ObjectId → List (Name × ObjectId)
  target : ObjectId → PathBuf
  searchable : ObjectId → Bool
  alike : Name → Name → Bool
  alike_self : ∀ n, alike n n = true
  distinct : ∀ dir, (entries dir).Pairwise fun a b => alike a.1 b.1 = false
  named : ∀ dir, ∀ e ∈ entries dir, e.1.IsEntry

inductive ErrorKind
  | notFound
  | notADirectory
  | permissionDenied
  | invalidInput
  | other
deriving DecidableEq

inductive IoError
  | of (kind : ErrorKind) (why : String)
  /-- A link met where none is allowed, or a splice budget spent at the link traced. -/
  | looped (trace : Option Trace)
  /-- What the link at the spelling's last name named is not there. -/
  | dangling (target : PathBuf) (source : IoError)

def IoError.kind : IoError → ErrorKind
  | .of kind _ => kind
  | .looped _ => .other
  | .dangling _ _ => .notFound

def stepName [Host] (asked stored : Name) : Name :=
  match Host.os with
  | .linux => asked
  | _ => stored

/-- The entry `name` of `parent`, never followed. -/
def FileSystem.step [Host] (fs : FileSystem) (parent : ObjectId) (name : Name) : Except IoError Step :=
  if fs.searchable parent then
    match (fs.entries parent).find? fun e => fs.alike e.1 name with
    | none => .error (.of .notFound "")
    | some (stored, id) => .ok ⟨stepName name stored, id, fs.kind id⟩
  else .error (.of .permissionDenied "")

/-! ## Where the walk stands -/

/-- A directory the walk holds and the one it was opened from. -/
inductive Node
  | root (held : ObjectId)
  | under (held : ObjectId) (above : Node)
deriving DecidableEq

def Node.held : Node → ObjectId
  | .root held => held
  | .under held _ => held

/-- An open directory: its node and its trace, which descends to it. -/
structure Dir where
  node : Node
  trace : Trace
  dirs : ∀ s ∈ trace.steps, s.kind = .dir

/-- A base node with its trace, and every directory entered since, the last on top. -/
structure Cursor where
  base : Node
  trace : Trace
  stack : List (ObjectId × Step)
  baseDirs : ∀ s ∈ trace.steps, s.kind = .dir
  stackDirs : ∀ x ∈ stack, x.2.kind = .dir

namespace Cursor

def root (fs : FileSystem) : Cursor where
  base := .root fs.rootId
  trace := ⟨[], fs.rootId, [], [], [], by simp⟩
  stack := []
  baseDirs := by simp
  stackDirs := by simp

def beneath (dir : Dir) : Cursor where
  base := dir.node
  trace := dir.trace
  stack := []
  baseDirs := dir.dirs
  stackDirs := by simp

def top (c : Cursor) : ObjectId := (c.stack.getLast?.map Prod.fst).getD c.base.held

def push (c : Cursor) (handle : ObjectId) (step : Step) (h : step.kind = .dir) : Cursor where
  base := c.base
  trace := c.trace
  stack := c.stack ++ [(handle, step)]
  baseDirs := c.baseDirs
  stackDirs := by
    intro x hx
    rcases List.mem_append.mp hx with hx | hx
    · exact c.stackDirs x hx
    · rw [List.mem_singleton.mp hx]
      exact h

def position (c : Cursor) : RealPath := c.stack.foldl (fun at_ x => at_.child x.2.name) c.trace.real

def pass (c : Cursor) (passed : RealPath) : Cursor where
  base := c.base
  trace := { c.trace with passed := c.trace.passed ++ [passed] }
  stack := c.stack
  baseDirs := c.baseDirs
  stackDirs := c.stackDirs

/-- A directory's trace without its last step; a root's is itself. -/
def aboveTrace (t : Trace) (h : ∀ s ∈ t.steps, s.kind = .dir) : Trace where
  root := t.root
  rootId := t.rootId
  steps := t.steps.dropLast
  tail := []
  passed := t.passed
  walkable := ⟨fun s hs => h s (List.dropLast_subset _ (List.dropLast_subset _ hs)), .inl rfl⟩

/-- Climb out of the directory on top; at a root there is nothing above, and the walk stays. -/
def up (c : Cursor) : Cursor :=
  let left := c.position
  if c.stack = [] then
    match c.base with
    | .root _ => c
    | .under _ above =>
      pass
        { base := above
          trace := aboveTrace c.trace c.baseDirs
          stack := []
          baseDirs := fun s hs => c.baseDirs s (List.dropLast_subset _ hs)
          stackDirs := by simp }
        left
  else
    pass
      { c with
        stack := c.stack.dropLast
        stackDirs := fun x hx => c.stackDirs x (List.dropLast_subset _ hx) }
      left

def steps (c : Cursor) : List Step := c.trace.steps ++ c.stack.map Prod.snd

theorem steps_dirs (c : Cursor) : ∀ s ∈ c.steps, s.kind = .dir := by
  intro s hs
  rcases List.mem_append.mp hs with hs | hs
  · exact c.baseDirs s hs
  · rcases List.mem_map.mp hs with ⟨x, hx, rfl⟩
    exact c.stackDirs x hx

def traceStep (c : Cursor) (step : Step) : Trace where
  root := c.trace.root
  rootId := c.trace.rootId
  steps := c.steps ++ [step]
  tail := []
  passed := c.trace.passed
  walkable := by
    rw [List.dropLast_concat]
    exact ⟨c.steps_dirs, .inl rfl⟩

def traceTail (c : Cursor) (tail : List Name) : Trace where
  root := c.trace.root
  rootId := c.trace.rootId
  steps := c.steps
  tail := tail
  passed := c.trace.passed
  walkable := ⟨fun s hs => c.steps_dirs s (List.dropLast_subset _ hs),
    .inr fun s hs => c.steps_dirs s (List.mem_of_getLast? hs)⟩

def intoTop (c : Cursor) : Node := c.stack.foldl (fun above x => .under x.1 above) c.base

end Cursor

/-! ## What a walk ends on -/

/-- What the walk has of the leaf. -/
inductive Leaf
  | absent (dir : Node)
  | dir (node : Node)
  | held (dir file : ObjectId)
deriving DecidableEq

/-- An object named exactly: its trace and its leaf, and where a link followed at the
spelling's last name led. -/
structure Located where
  trace : Trace
  leaf : Leaf
  linked : Option PathBuf
  dirs : ∀ node, leaf = .dir node → ∀ s ∈ trace.steps, s.kind = .dir

def Located.intoDir (l : Located) : Option Dir :=
  match h : l.leaf with
  | .dir node => some ⟨node, l.trace, l.dirs node h⟩
  | _ => none

/-- Where a walk's names ran out. -/
inductive Ended
  | leaf (child : Step)
  | entered
  | absent (tail : List Name)

/-! ## The walker -/

inductive Mode
  | follow
  | noFollow
  /-- The spelling names a directory, and the directory entered is the object. -/
  | enter
deriving DecidableEq

/-- What the walk does at a name it cannot enter. -/
inductive OnMissing
  | fail
  | stop
deriving DecidableEq

inductive Links
  | splice
  | refuse
deriving DecidableEq

/-- A name still splicing past this is a cycle. -/
def MAX_HOPS : ℕ := 40

structure Walker where
  cursor : Cursor
  names : List SpelledName
  mode : Mode
  missing : OnMissing
  links : Links
  splices : ℕ
  linked : Option PathBuf

namespace Walker

/-- A walk that ends on a `..`, or on no name at all, names a directory. -/
def settleMode (w : Walker) : Walker :=
  match w.names.getLast? with
  | none | some .parent => { w with mode := .enter }
  | some (.entry _ _) => w

def new (cursor : Cursor) (names : List SpelledName) (mode : Mode) (missing : OnMissing)
    (links : Links) : Walker :=
  settleMode ⟨cursor, names, mode, missing, links, 0, none⟩

/-- Replace `link`, now passed, with its target. The walker is changed even where it fails. -/
def splice (fs : FileSystem) (w : Walker) (link : Step) (target : PathBuf) : Walker × Option IoError :=
  let passed := w.cursor.position.child link.name
  let w := { w with cursor := w.cursor.pass passed, splices := w.splices + 1 }
  if MAX_HOPS < w.splices then (w, some (.looped (some (w.cursor.traceStep link))))
  else if target = [] then
    (w, some (.of .notFound "a symlink with an empty target names nothing"))
  else
    let spelling := split target
    let cursor :=
      match spelling.root with
      | some _ =>
        let restarted := Cursor.root fs
        { restarted with trace := { restarted.trace with passed := w.cursor.trace.passed } }
      | none => w.cursor
    let mode := if w.names = [] ∧ namesADir target then .enter else w.mode
    let names := spelling.names.map SpelledName.spliced ++ w.names
    (settleMode { w with cursor, names, mode }, none)

/-- Fold the names left onto a tail; a `..` that takes its first name leaves those after it. -/
def fold : List Name → List SpelledName → List Name ⊕ List SpelledName
  | tail, [] => .inl tail
  | tail, .entry name _ :: names => fold (tail ++ [name]) names
  | tail, .parent :: names => if tail.dropLast = [] then .inr names else fold tail.dropLast names

/-- A refusal past a link followed at the last name is that link's target not being there. -/
def unreached (w : Walker) (error : IoError) : IoError :=
  match w.linked with
  | some target => if error.kind = .notFound then .dangling target error else error
  | none => error

def stopped (w : Walker) (name : Name) (error : IoError) : Except IoError (Walker × Option Ended) :=
  match w.missing with
  | .stop =>
    if error.kind = .notFound ∨ error.kind = .notADirectory ∨ error.kind = .permissionDenied then
      match fold [name] w.names with
      | .inl tail => .ok ({ w with names := [] }, some (.absent tail))
      | .inr names => .ok ({ w with names }, none)
    else .error (w.unreached error)
  | .fail =>
    if error.kind = .notFound ∧ w.names = [] ∧ w.mode ≠ .enter then
      .ok (w, some (.absent [name]))
    else .error (w.unreached error)

variable [Host]

/-- Take a name just popped: a `..` climbs the cursor, an entry is opened beneath it. -/
def take (fs : FileSystem) (w : Walker) : SpelledName → Except IoError (Walker × Option Ended)
  | .parent => .ok ({ w with cursor := w.cursor.up }, none)
  | .entry name origin =>
    let last : Bool := w.names.isEmpty
    let entering : Bool := !last || w.mode == .enter
    match fs.step w.cursor.top name with
    | .error e => w.stopped name e
    | .ok child =>
      match h : child.kind with
      | .symlink =>
        if w.links = .refuse then .error (.looped none)
        else if last ∧ w.mode = .noFollow then .ok (w, some (.leaf child))
        else
          let target := fs.target child.id
          let linked := if last ∧ origin = .spelled then some target else w.linked
          match splice fs { w with linked } child target with
          | (w, none) => .ok (w, none)
          | (w, some e) => w.stopped name e
      | .dir =>
        if entering then .ok ({ w with cursor := w.cursor.push child.id child h }, none)
        else .ok (w, some (.leaf child))
      | _ =>
        if entering then w.stopped name (.of .notADirectory "")
        else .ok (w, some (.leaf child))

/-! ### What one name does -/

omit [Host] in
theorem settleMode_eq (w : Walker) :
    settleMode w = { w with mode := (settleMode w).mode } ∧
      ((settleMode w).mode = .enter ∨ (settleMode w).mode = w.mode) := by
  unfold settleMode
  split
  · exact ⟨rfl, .inl rfl⟩
  · exact ⟨rfl, .inl rfl⟩
  · exact ⟨rfl, .inr rfl⟩

omit [Host] in
theorem fold_suffix {tail : List Name} {names rest : List SpelledName}
    (h : fold tail names = .inr rest) : rest <:+ names := by
  induction names generalizing tail with
  | nil => cases h
  | cons name names ih =>
    cases name with
    | entry name origin => exact (ih h).trans (List.suffix_cons _ _)
    | parent =>
      rw [fold] at h
      split at h
      · cases h
        exact List.suffix_cons _ _
      · exact (ih h).trans (List.suffix_cons _ _)

omit [Host] in
/-- A stop moves nothing and drops names at most; a strict one ends at the last name. -/
theorem stopped_cases {w w' : Walker} {name : Name} {e : IoError} {ended : Option Ended}
    (h : w.stopped name e = .ok (w', ended)) :
    w' = { w with names := w'.names } ∧ w'.names <:+ w.names ∧
      (ended = none ∨ ∃ tail, ended = some (.absent tail)) ∧ e.kind ≠ .other ∧
      (w.missing = .fail → w' = w ∧ ended = some (.absent [name]) ∧ e.kind = .notFound ∧
        w.names = [] ∧ w.mode ≠ .enter) := by
  unfold stopped at h
  split at h
  · next hmissing =>
      have hstop : w.missing = .fail → False := fun hfail => by
        rw [hmissing] at hfail
        cases hfail
      split at h
      · next hlenient =>
          have hother : e.kind ≠ .other := by
            intro ho
            rw [ho] at hlenient
            simp at hlenient
          split at h
          · next tail _ =>
              cases h
              exact ⟨rfl, List.nil_suffix, .inr ⟨tail, rfl⟩, hother, fun hf => (hstop hf).elim⟩
          · next names hfold =>
              cases h
              exact ⟨rfl, fold_suffix hfold, .inl rfl, hother, fun hf => (hstop hf).elim⟩
      · cases h
  · split at h
    · next hlast =>
        cases h
        have hother : e.kind ≠ .other := by
          rw [hlast.1]
          decide
        exact ⟨rfl, List.suffix_rfl, .inr ⟨_, rfl⟩, hother, fun _ => ⟨rfl, rfl, hlast⟩⟩
    · cases h

omit [Host] in
/-- A splice passes the link and goes on from the cursor or the root with the target's
names, or fails past its budget or on an empty target. -/
theorem splice_cases {fs : FileSystem} {w w' : Walker} {link : Step} {target : PathBuf}
    {e : Option IoError} (h : w.splice fs link target = (w', e)) :
    (∃ why passed, e = some why ∧ w' = { w with cursor := w.cursor.pass passed, splices := w.splices + 1 } ∧
      (why.kind = .other ∨ why.kind = .notFound ∧ target = [] ∧ w.splices + 1 ≤ MAX_HOPS)) ∨
    (e = none ∧ w'.splices = w.splices + 1 ∧ w'.splices ≤ MAX_HOPS ∧ w'.missing = w.missing ∧
      w'.links = w.links ∧ (w'.mode = .enter ∨ w'.mode = w.mode) ∧
      w'.names = (split target).names.map SpelledName.spliced ++ w.names ∧
      ∃ passed, w'.cursor = w.cursor.pass passed ∨ w'.cursor =
        { Cursor.root fs with
          trace := { (Cursor.root fs).trace with passed := w.cursor.trace.passed ++ [passed] } }) := by
  unfold splice at h
  dsimp only at h
  split at h
  · cases h
    exact .inl ⟨_, _, rfl, rfl, .inl rfl⟩
  · next hbudget =>
      split at h
      · next hempty =>
          cases h
          exact .inl ⟨_, _, rfl, rfl, .inr ⟨rfl, hempty, by omega⟩⟩
      · cases h
        refine .inr ⟨rfl, ?_⟩
        generalize hw₁ : (Walker.mk _ _ _ _ _ _ _) = w₁
        obtain ⟨hsame, hmode⟩ := settleMode_eq w₁
        have hsplices : w₁.splices = w.splices + 1 := by rw [← hw₁]
        have hmode₁ : w₁.mode = .enter ∨ w₁.mode = w.mode := by
          rw [← hw₁]
          dsimp only
          split
          · exact .inl rfl
          · exact .inr rfl
        rw [hsame]
        refine ⟨hsplices, by rw [hsplices]; omega, by rw [← hw₁], by rw [← hw₁], ?_, by rw [← hw₁], ?_⟩
        · rcases hmode with hm | hm
          · exact .inl hm
          · rw [hm]
            exact hmode₁
        · refine ⟨w.cursor.position.child link.name, ?_⟩
          rw [← hw₁]
          dsimp only
          split
          · exact .inr rfl
          · exact .inl rfl

/-- What taking one name can do. -/
theorem take_cases {fs : FileSystem} {w w' : Walker} {name : SpelledName} {ended : Option Ended}
    (h : w.take fs name = .ok (w', ended)) :
    (name = .parent ∧ w' = { w with cursor := w.cursor.up } ∧ ended = none) ∨
    ∃ entry origin, name = .entry entry origin ∧
      ((∃ e, w.stopped entry e = .ok (w', ended) ∧
          (e.kind = .notFound → fs.step w.cursor.top entry = .error e)) ∨
        ∃ child, fs.step w.cursor.top entry = .ok child ∧
          ((ended = some (.leaf child) ∧ w' = w ∧ w.names = [] ∧ w.mode ≠ .enter ∧
              (child.kind = .symlink → w.mode = .noFollow ∧ w.links = .splice)) ∨
            (∃ hdir : child.kind = .dir, ended = none ∧
              w' = { w with cursor := w.cursor.push child.id child hdir }) ∨
            (child.kind = .symlink ∧ w.links = .splice ∧ ∃ linked w₁ e,
              splice fs { w with linked } child (fs.target child.id) = (w₁, e) ∧
              match e with
              | none => w' = w₁ ∧ ended = none
              | some why => w₁.stopped entry why = .ok (w', ended)))) := by
  cases name with
  | parent =>
    cases h
    exact .inl ⟨rfl, rfl, rfl⟩
  | entry entry origin =>
    refine .inr ⟨entry, origin, rfl, ?_⟩
    have hlast : ¬ (!w.names.isEmpty || w.mode == .enter) = true → w.names = [] ∧ w.mode ≠ .enter := by
      intro hnot
      rw [Bool.or_eq_true, not_or] at hnot
      exact ⟨by simpa using hnot.1, by simpa using hnot.2⟩
    unfold take at h
    dsimp only at h
    split at h
    · next e he => exact .inl ⟨e, h, fun _ => he⟩
    · next child hchild =>
        split at h
        · next hkind =>
            split at h
            · cases h
            · next hlinks =>
                have hlinks : w.links = .splice := by
                  cases hl : w.links with
                  | splice => rfl
                  | refuse => exact (hlinks hl).elim
                split at h
                · next hstop =>
                    cases h
                    refine .inr ⟨child, hchild, .inl ⟨rfl, rfl, by simpa using hstop.1, ?_, fun _ => ⟨hstop.2, hlinks⟩⟩⟩
                    rw [hstop.2]
                    decide
                · refine .inr ⟨child, hchild, .inr (.inr ⟨hkind, hlinks, ?_⟩)⟩
                  split at h
                  · next w₁ hsplice =>
                      cases h
                      exact ⟨_, _, none, hsplice, rfl, rfl⟩
                  · next w₁ why hsplice => exact ⟨_, w₁, some why, hsplice, h⟩
        · next hdir =>
            split at h
            · cases h
              exact .inr ⟨child, hchild, .inr (.inl ⟨hdir, rfl, rfl⟩)⟩
            · next hleaf =>
                cases h
                obtain ⟨hnames, hmode⟩ := hlast hleaf
                refine .inr ⟨child, hchild, .inl ⟨rfl, rfl, hnames, hmode, fun hk => ?_⟩⟩
                rw [hdir] at hk
                cases hk
        · next hlink hdir =>
            split at h
            · exact .inl ⟨_, h, fun hk => by cases hk⟩
            · next hleaf =>
                cases h
                obtain ⟨hnames, hmode⟩ := hlast hleaf
                exact .inr ⟨child, hchild, .inl ⟨rfl, rfl, hnames, hmode, fun hk => (hlink hk).elim⟩⟩

theorem take_measure {fs : FileSystem} {w w' : Walker} {name : SpelledName}
    (h : w.take fs name = .ok (w', none)) :
    w'.splices ≤ MAX_HOPS ∧ w'.splices = w.splices + 1 ∨
      w'.splices = w.splices ∧ w'.names.length ≤ w.names.length := by
  rcases take_cases h with ⟨_, rfl, _⟩ | ⟨entry, _, _, ⟨e, hstopped, _⟩ | ⟨child, _, hchild⟩⟩
  · exact .inr ⟨rfl, le_rfl⟩
  · obtain ⟨hsame, hnames, _⟩ := stopped_cases hstopped
    rw [hsame]
    exact .inr ⟨rfl, hnames.length_le⟩
  · rcases hchild with ⟨hended, _⟩ | ⟨_, _, rfl⟩ | ⟨_, _, linked, w₁, e, hsplice, he⟩
    · cases hended
    · exact .inr ⟨rfl, le_rfl⟩
    · rcases splice_cases hsplice with ⟨why, passed, rfl, rfl, hwhy⟩ | ⟨rfl, hsplices, hbudget, _⟩
      · obtain ⟨hsame, _, _, hother, _⟩ := stopped_cases he
        rcases hwhy with hwhy | ⟨_, _, hbudget⟩
        · exact (hother hwhy).elim
        · rw [hsame]
          exact .inl ⟨hbudget, rfl⟩
      · obtain ⟨rfl, _⟩ := he
        exact .inl ⟨hbudget, hsplices⟩

set_option linter.unusedVariables false in
def advance (fs : FileSystem) (w : Walker) : Except IoError (Walker × Ended) :=
  match hn : w.names with
  | [] => .ok (w, .entered)
  | name :: names =>
    match ht : take fs { w with names } name with
    | .error e => .error e
    | .ok (w', some ended) => .ok (w', ended)
    | .ok (w', none) => advance fs w'
termination_by (MAX_HOPS + 1 - w.splices, w.names.length)
decreasing_by
  rcases take_measure ht with ⟨hle, hs⟩ | ⟨hs, hl⟩
  · apply Prod.Lex.left
    have hs : w'.splices = w.splices + 1 := hs
    omega
  · have hs : w'.splices = w.splices := hs
    have hl : w'.names.length ≤ names.length := hl
    rw [hs]
    apply Prod.Lex.right
    rw [hn, List.length_cons]
    omega

theorem advance_nil {fs : FileSystem} {w : Walker} (h : w.names = []) :
    w.advance fs = .ok (w, .entered) := by
  rw [advance]
  split
  · rfl
  · next hcons =>
      rw [h] at hcons
      cases hcons

theorem advance_cons {fs : FileSystem} {w : Walker} {name : SpelledName} {names : List SpelledName}
    (h : w.names = name :: names) :
    w.advance fs =
      match take fs { w with names } name with
      | .error e => .error e
      | .ok (w', some ended) => .ok (w', ended)
      | .ok (w', none) => w'.advance fs := by
  rw [advance]
  split
  · next hnil =>
      rw [h] at hnil
      cases hnil
  · next hcons =>
      rw [h] at hcons
      cases hcons
      split <;> simp only [*]

def conclude (w : Walker) : Ended → Located
  | .leaf child =>
    let dir := w.cursor.intoTop
    { trace := w.cursor.traceStep child
      leaf := if child.kind = .dir then .dir (.under child.id dir) else .held dir.held child.id
      linked := w.linked
      dirs := by
        intro node hnode s hs
        split at hnode
        · next hdir =>
            rcases List.mem_append.mp hs with hs | hs
            · exact w.cursor.steps_dirs s hs
            · rw [List.mem_singleton.mp hs]
              exact hdir
        · cases hnode }
  | .entered =>
    { trace := w.cursor.traceTail []
      leaf := .dir w.cursor.intoTop
      linked := w.linked
      dirs := fun _ _ => w.cursor.steps_dirs }
  | .absent tail =>
    { trace := w.cursor.traceTail tail
      leaf := .absent w.cursor.intoTop
      linked := w.linked
      dirs := by
        intro node hnode
        cases hnode }

def run (fs : FileSystem) (w : Walker) : Except IoError Located :=
  (w.advance fs).map fun x => conclude x.1 x.2

end Walker

section Entries
variable [Host]

def finish (fs : FileSystem) (path : PathBuf) (mode : Mode) (missing : OnMissing) (links : Links) :
    Except IoError Located :=
  if isAbsolute path then
    let mode := if namesADir path then .enter else mode
    (Walker.new (Cursor.root fs) (split path).names mode missing links).run fs
  else .error (.of .invalidInput "a walk starts from the root, and a relative name has none")

def walk (fs : FileSystem) (path : PathBuf) (mode : Mode) : Except IoError Located :=
  finish fs path mode .fail .splice

def Dir.walk (fs : FileSystem) (dir : Dir) (names : List SpelledName) (mode : Mode) :
    Except IoError Located :=
  (Walker.new (Cursor.beneath dir) names mode .fail .splice).run fs

def Dir.target (fs : FileSystem) (dir : Dir) (name : Name) (mode : Mode) : Except IoError Located :=
  dir.walk fs [.entry name .spelled] mode

def Dir.followLink (fs : FileSystem) (dir : Dir) (name : Name) : Except IoError Located :=
  match fs.step dir.node.held name with
  | .error e => .error e
  | .ok step =>
    if step.kind ≠ .symlink then .error (.of .invalidInput "not a link")
    else
      match (Walker.new (Cursor.beneath dir) [] .enter .fail .splice).splice fs step (fs.target step.id) with
      | (_, some e) => .error e
      | (w, none) => w.run fs

def Dir.openDirViaLink (fs : FileSystem) (dir : Dir) (name : Name) : Except IoError Dir :=
  match dir.followLink fs name with
  | .error e => .error e
  | .ok l =>
    match l.intoDir with
    | some dir => .ok dir
    | none => .error (.of .notADirectory "")

end Entries

end Ral.Path
