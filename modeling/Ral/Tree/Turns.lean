import Ral.Path.Rewalk
import Ral.Tree.Entries

/-! # What one step of the walk does

What each reads is judged first. A directory entered gives a frame of its listing, in name order,
less what the region refuses, and a layer of rules with it.
-/

namespace Ral.Tree
open Ral.Path Ral.Authority

section

variable [Host] [Gitignore] [Git] {Cancellation : Type}

/-! ## Listings -/

namespace Disk

variable {disk : Disk} {dir : Dir} {listing : List Item}

omit [Host] [Gitignore] [Git] in
theorem readDir_map (h : disk.readDir dir = .ok listing) : listing.map Item.name =
    ((disk.entries dir.node.held).mergeSort fun a b => a.1 ≤ b.1).map Prod.fst := by
  unfold readDir at h
  cases hl : disk.listable dir.node.held with
  | error e => rw [hl] at h; cases h
  | ok u =>
    rw [hl] at h
    cases h
    rw [List.map_map]
    rfl

omit [Host] [Gitignore] [Git] in
theorem readDir_sorted (h : disk.readDir dir = .ok listing) : listing.Pairwise fun a b => a.name < b.name := by
  have hle : ((disk.entries dir.node.held).mergeSort fun a b => a.1 ≤ b.1).Pairwise fun a b => a.1 ≤ b.1 := by
    have htrans (a b c : Name × ObjectId) : decide (a.1 ≤ b.1) = true → decide (b.1 ≤ c.1) = true →
        decide (a.1 ≤ c.1) = true := by
      simpa using fun hab hbc => le_trans hab hbc
    have htotal (a b : Name × ObjectId) : (decide (a.1 ≤ b.1) || decide (b.1 ≤ a.1)) = true := by
      simpa using le_total a.1 b.1
    have hsorted := List.pairwise_mergeSort htrans htotal (disk.entries dir.node.held)
    exact hsorted.imp fun hab => by simpa using hab
  have hne : ((disk.entries dir.node.held).mergeSort fun a b => a.1 ≤ b.1).Pairwise fun a b => a.1 ≠ b.1 := by
    have hdistinct : (disk.entries dir.node.held).Pairwise fun a b => a.1 ≠ b.1 := by
      refine (disk.distinct dir.node.held).imp fun {a b} hab heq => ?_
      rw [heq, disk.alike_self] at hab
      cases hab
    exact (List.mergeSort_perm _ _).symm.pairwise hdistinct fun hab => hab.symm
  have hlt := hle.and hne
  have hnames : (listing.map Item.name).Pairwise (· < ·) := by
    rw [readDir_map h, List.pairwise_map]
    exact hlt.imp fun hab => lt_of_le_of_ne hab.1 hab.2
  exact List.pairwise_map.mp hnames

omit [Host] [Gitignore] [Git] in
theorem readDir_named (h : disk.readDir dir = .ok listing) {item : Item} (hitem : item ∈ listing) : item.name.IsEntry := by
  have hmem : item.name ∈ listing.map Item.name := List.mem_map_of_mem hitem
  rw [readDir_map h] at hmem
  obtain ⟨e, he, heq⟩ := List.mem_map.mp hmem
  rw [← heq]
  exact disk.named _ e (List.mem_mergeSort.mp he)

omit [Host] [Gitignore] [Git] in
theorem readDir_length (h : disk.readDir dir = .ok listing) : listing.length = (disk.entries dir.node.held).length := by
  have hlength := congrArg List.length (readDir_map h)
  simpa using hlength

end Disk

/-! ## What is read is judged -/

namespace Granted

variable (g : Granted Cancellation)

/-- All that was opened, the region admits. -/
def Clean (log : List Access) : Prop := ∀ a ∈ log, g.judges a.trace = true

/-- What it opens, the region admits. -/
def Guarded {α : Type} (x : Noting α) : Prop := ∀ log, log <+: (x log).2 ∧ (g.Clean log → g.Clean (x log).2)

variable {g}

omit [Gitignore] [Git] in
theorem Clean.snoc {log : List Access} {a : Access} (h : g.Clean log) (ha : g.judges a.trace = true) :
    g.Clean (log ++ [a]) := by
  intro b hb
  rcases List.mem_append.mp hb with hb | hb
  · exact h b hb
  · rw [List.mem_singleton.mp hb]
    exact ha

omit [Gitignore] [Git] in
theorem Guarded.pure {α : Type} (a : α) : g.Guarded (pure a) := fun _ => ⟨List.prefix_rfl, id⟩

omit [Gitignore] [Git] in
theorem Guarded.bind {α β : Type} {x : Noting α} {f : α → Noting β} (hx : g.Guarded x) (hf : ∀ a, g.Guarded (f a)) :
    g.Guarded (x >>= f) := by
  intro log
  obtain ⟨hinit, hclean⟩ := hx log
  obtain ⟨hinit', hclean'⟩ := hf (x log).1 (x log).2
  exact ⟨hinit.trans hinit', fun h => hclean' (hclean h)⟩

omit [Gitignore] [Git] in
theorem guarded_readJudged (located : Except IoError Located) : g.Guarded (g.readJudged located) := by
  unfold readJudged
  split
  · exact .pure _
  · next l =>
    split
    · next hl => exact fun _ => ⟨List.prefix_append _ _, fun h => h.snoc hl⟩
    · exact .pure _

omit [Gitignore] [Git] in
theorem guarded_readNamed (path : PathBuf) : g.Guarded (g.readNamed path) := guarded_readJudged _

omit [Gitignore] [Git] in
theorem guarded_runReads {α : Type} (reads : Reads α) : g.Guarded (g.runReads reads) := by
  induction reads with
  | done a => exact .pure a
  | read path next ih =>
    refine .bind ?_ ih
    exact .bind (guarded_readNamed path) fun _ => .pure _

omit [Gitignore] [Git] in
theorem Guarded.map {α β : Type} {x : Noting α} (f : α → β) (hx : g.Guarded x) : g.Guarded (x.map f) :=
  fun log => hx log

omit [Gitignore] [Git] in
theorem guarded_readWhere (wanted : Bool) {read : Noting (Except IoError (List UInt8))} (hread : g.Guarded read) :
    g.Guarded (readWhere wanted read) := by
  unfold readWhere
  split
  · exact hread.map _
  · exact .pure _

omit [Gitignore] in
theorem guarded_readExclude (dotGit : Option (PathBuf × Bool)) : g.Guarded (g.readExclude dotGit) := by
  cases dotGit with
  | none => exact .pure _
  | some found =>
    apply (guarded_runReads _).bind
    intro file
    cases file with
    | none => exact .pure _
    | some file => exact (guarded_readNamed file).map _

theorem guarded_assemble (depth : ℕ) (marks : Marks) (dotGit : Option (PathBuf × Bool)) (within : Bool)
    {read : Name → Noting (Except IoError (List UInt8))} (hread : ∀ name, g.Guarded (read name)) :
    g.Guarded (g.assemble depth marks dotGit within read) := by
  apply (guarded_readWhere _ (hread _)).bind
  intro ignore
  apply (guarded_readWhere _ (hread _)).bind
  intro gitignore
  apply (guarded_readExclude dotGit).bind
  intro exclude
  exact .pure _

theorem guarded_layer (rules : Rules) (dir : Dir) (marks : Marks) (named : Bool) :
    g.Guarded (g.layer rules dir marks named) := guarded_assemble _ _ _ _ fun _ => guarded_readJudged _

theorem guarded_pushAll (nearest : Option ℕ) (rules : Rules)
    (above : List ((RealPath × Option (PathBuf × Bool)) × ℕ)) : g.Guarded (g.pushAll nearest rules above) := by
  induction above generalizing rules with
  | nil => exact .pure rules
  | cons a rest ih => exact .bind (guarded_assemble _ _ _ _ fun _ => guarded_readNamed _) fun layer => ih _

theorem guarded_ancestry (root : Dir) : g.Guarded (g.ancestry root) := guarded_pushAll _ _ _

end Granted

/-! ## The layers in step with the frames -/

/-- One layer for each directory from the filesystem root down to the one on top, `n` of them the
walk's, and a name for each beneath the walk's root. -/
structure Rules.InStep (rules : Rules) (n : ℕ) : Prop where
  layers : rules.layers.map Layer.depth = List.range (rules.base + n)
  names : rules.names.length = rules.base + (n - 1)

namespace Rules

variable {rules : Rules} {n : ℕ}

omit [Host] [Git] in
theorem InStep.push (h : rules.InStep 0) {layer : Layer} (hdepth : layer.depth = rules.depth) :
    (rules.push layer).InStep 1 where
  layers := by
    rw [Rules.push, List.map_append, h.layers, List.map_singleton, hdepth, Rules.depth, h.names, List.range_succ]
    rfl
  names := h.names

omit [Host] [Git] in
theorem InStep.enter (h : rules.InStep (n + 1)) (name : Name) {layer : Layer} (hdepth : layer.depth = rules.depth + 1) :
    (rules.enter name layer).InStep (n + 2) where
  layers := by
    have hnames : rules.names.length = rules.base + n := h.names
    rw [Rules.enter, List.map_append, h.layers, List.map_singleton, hdepth, Rules.depth, hnames,
      ← Nat.add_assoc _ (n + 1) 1, List.range_succ]
    rfl
  names := by
    have hnames : rules.names.length = rules.base + n := h.names
    simp only [Rules.enter, List.length_append, List.length_singleton, hnames]
    omega

omit [Host] [Git] in
theorem InStep.leave (h : rules.InStep (n + 1)) : rules.leave.InStep n where
  layers := by
    rw [Rules.leave, List.map_dropLast, h.layers, ← Nat.add_assoc, List.range_succ, List.dropLast_concat]
  names := by
    have hnames : rules.names.length = rules.base + n := h.names
    simp only [Rules.leave]
    split
    · rw [List.length_dropLast]
      omega
    · omega

end Rules

namespace Granted

variable {g : Granted Cancellation}

theorem pushAll_layers (nearest : Option ℕ) (rules : Rules)
    (above : List ((RealPath × Option (PathBuf × Bool)) × ℕ)) (log : List Access) :
    (g.pushAll nearest rules above log).1.names = rules.names ∧
      (g.pushAll nearest rules above log).1.base = rules.base ∧
      (g.pushAll nearest rules above log).1.layers.map Layer.depth =
        rules.layers.map Layer.depth ++ above.map fun a => a.1.1.names.length := by
  induction above generalizing rules log with
  | nil => exact ⟨rfl, rfl, (List.append_nil _).symm⟩
  | cons a rest ih =>
    obtain ⟨⟨real, dotGit⟩, i⟩ := a
    obtain ⟨hnames, hbase, hlayers⟩ := ih (rules.push (g.above real dotGit (nearest.any fun n => i ≤ n) log).1)
      (g.above real dotGit (nearest.any fun n => i ≤ n) log).2
    refine ⟨hnames, hbase, hlayers.trans ?_⟩
    rw [Rules.push, List.map_append, List.append_assoc]
    rfl

theorem ancestry_inStep (root : Dir) (log : List Access) : (g.ancestry root log).1.InStep 0 := by
  have hlengths : (parents root.trace.real).map (fun real => real.names.length) =
      (List.range root.trace.real.names.length).reverse := by
    have hinits : root.trace.real.names.inits.map List.length = List.range (root.trace.real.names.length + 1) := by
      apply List.ext_getElem
      · simp
      · intro i h₁ h₂
        have hi : i ≤ root.trace.real.names.length := by
          rw [List.length_range] at h₂
          omega
        simp [Nat.min_eq_left hi]
    rw [parents, List.map_map]
    change (root.trace.real.names.inits.dropLast.reverse).map List.length = _
    rw [List.map_reverse, List.map_dropLast, hinits, List.range_succ, List.dropLast_concat]
  obtain ⟨hnames, hbase, hlayers⟩ := pushAll_layers (g := g)
    (((parents root.trace.real).map fun real => (real, g.dotGitAt real)).findIdx? fun a => a.2.isSome)
    (Rules.new root.trace.real.names)
    (((parents root.trace.real).map fun real => (real, g.dotGitAt real)).zipIdx.reverse) log
  constructor
  · refine hlayers.trans ?_
    have hzip (l : List (RealPath × Option (PathBuf × Bool))) :
        l.zipIdx.map (fun a => a.1.1.names.length) = l.map fun a => a.1.names.length := by
      have hfst := congrArg (List.map fun a => a.1.names.length) (List.zipIdx_map_fst 0 l)
      rwa [List.map_map] at hfst
    rw [List.map_reverse, hzip, List.map_map]
    change [] ++ ((parents root.trace.real).map fun real => real.names.length).reverse = _
    rw [hlengths, List.reverse_reverse, List.nil_append]
    exact congrArg List.range hbase.symm
  · exact (congrArg List.length hnames).trans hbase.symm

end Granted

end

/-! ## What a turn of the walk keeps

The directories on the stack lie beneath one another, each entered at an entry yielded, and what is
left in them lies ahead of all that was yielded.
-/

variable [Host] {Cancellation : Type}

/-! ## The directories held stand on entries -/

section Standing
variable {fs : FileSystem} {dir d : Dir} {name : Name}

theorem held_eq (hd : (Cursor.beneath dir).Stands fs) : dir.node.held = dir.trace.lastId := by
  have htop : (Cursor.beneath dir).top = dir.node.held := by simp [Cursor.top, Cursor.beneath]
  have hsteps : (Cursor.beneath dir).steps = dir.trace.steps := by simp [Cursor.steps, Cursor.beneath]
  rw [← htop, hd.top_eq, hsteps, ← hd.rootId]
  rfl

theorem openDir_stands (hd : (Cursor.beneath dir).Stands fs) (hname : name.IsEntry)
    (h : openDir fs dir name = .ok d) : (Cursor.beneath d).Stands fs ∧ ∃ stored,
      (stored, d.trace.lastId) ∈ fs.entries dir.trace.lastId ∧ fs.kind d.trace.lastId = .dir := by
  unfold openDir at h
  split at h
  · cases h
  · next child hchild =>
    split at h
    · next hdir =>
      cases h
      constructor
      · apply beneath_stands [child] hd
        · exact ⟨rfl, rfl, rfl⟩
        · rfl
        · have htop : (Cursor.beneath dir).top = dir.node.held := by simp [Cursor.top, Cursor.beneath]
          rw [htop]
          exact ⟨FileSystem.step_stored hchild, trivial⟩
        · intro s hs
          rw [List.mem_singleton.mp hs]
          exact FileSystem.step_isEntry hchild hname
        · rfl
      · obtain ⟨_, stored, hfind, hkind, _⟩ := FileSystem.step_eq_ok.mp hchild
        have hlast : ((Cursor.beneath dir).traceStep child).lastId = child.id := by
          simp [Trace.lastId, Cursor.traceStep]
        rw [hlast, ← held_eq hd]
        exact ⟨stored, List.mem_of_find?_eq_some hfind, hkind.symm.trans hdir⟩
    · cases h

theorem openDirViaLink_stands (hd : (Cursor.beneath dir).Stands fs) (h : dir.openDirViaLink fs name = .ok d) :
    (Cursor.beneath d).Stands fs := by
  unfold Dir.openDirViaLink at h
  split at h
  · cases h
  · next l hl =>
    obtain ⟨w, hsound, _, _, hrun⟩ := followLink_run hd hl
    split at h
    · next hdir =>
      cases h
      exact run_beneath hsound hrun hdir
    · cases h

theorem walkDir_stands {path : PathBuf} (h : walkDir fs path = .ok d) : (Cursor.beneath d).Stands fs := by
  unfold walkDir at h
  split at h
  · cases h
  · next l hl =>
    split at h
    · next hdir =>
      cases h
      exact (Reached.walked hl hdir).stands
    · cases h

end Standing

namespace Granted

section Listing
variable {g : Granted Cancellation}

theorem linked_any (top : Frame) (name : Name) (stat : Kind) (enterable : Bool) :
    (g.linked top name stat enterable).any (fun opened => opened.isOk) = (g.walk.followLinks && enterable &&
      stat = .symlink && (top.dir.openDirViaLink g.disk.toFileSystem name).isOk) := by
  unfold linked
  split
  · next hfollow => rw [hfollow, Bool.true_and, Option.any_some]
  · next hno => rw [Bool.eq_false_iff.mpr hno, Bool.false_and, Option.any_none]

variable [Gitignore]

theorem admitAll_ok {dir : Dir} {listing items items' : List Item} {marks marks' : Marks} {s s' : Entries}
    (h : g.admitAll dir listing (items, marks) s = (.ok (items', marks'), s')) :
    items' = items ++ listing.filter (g.admits dir) ∧
      marks' = listing.foldl (fun marks item => marks.note item.name) marks ∧
      s' = { s with polled := s.polled + listing.length } := by
  induction listing generalizing items marks s with
  | nil =>
    cases h
    exact ⟨(List.append_nil _).symm, rfl, rfl⟩
  | cons item rest ih =>
    unfold admitAll at h
    split at h
    · cases h
    · next hpoll =>
      obtain ⟨hitems, hmarks, hs⟩ := ih h
      rw [g.poll_ok hpoll] at hs
      rw [hitems, hs, List.filter_cons]
      refine ⟨?_, hmarks, by simp [Nat.add_comm, Nat.add_left_comm]⟩
      split <;> simp

theorem admitAll_error {dir : Dir} {listing : List Item} {taken : List Item × Marks} {s s' : Entries}
    {stop : Cancellation} (h : g.admitAll dir listing taken s = (.error stop, s')) :
    s'.log = s.log ∧ s'.started = s.started ∧ g.Stops stop := by
  induction listing generalizing taken s with
  | nil => cases h
  | cons item rest ih =>
    unfold admitAll at h
    split at h
    · next hpoll =>
      cases h
      rw [g.poll_error hpoll]
      exact ⟨rfl, rfl, g.poll_stops hpoll⟩
    · next hpoll =>
      have hrest := ih h
      rw [g.poll_ok hpoll] at hrest
      exact hrest

/-- The log grows by what the region admits. -/
structure Grown (g : Granted Cancellation) (s s' : Entries) : Prop where
  clean : g.Clean s.log → g.Clean s'.log
  kept : s.log <+: s'.log
  started : s'.started = s.started

theorem Grown.refl (s : Entries) : g.Grown s s := ⟨id, List.prefix_rfl, rfl⟩

theorem Grown.trans {s s' t : Entries} (h : g.Grown s s') (h' : g.Grown s' t) : g.Grown s t :=
  ⟨fun hc => h'.clean (h.clean hc), h.kept.trans h'.kept, h'.started.trans h.started⟩

omit [Host] in
theorem fresh_of_beyond {s : Entries} {id : ObjectId} (h : ¬ g.beyond s id = true)
    (follow : g.walk.followLinks = true) : id ∉ s.stack.map Frame.id := by
  intro hid
  obtain ⟨frame, hframe, rfl⟩ := List.mem_map.mp hid
  apply h
  rw [beyond, follow, Bool.true_and, Bool.or_eq_true, List.any_eq_true]
  exact .inr ⟨frame, hframe, by simp⟩

end Listing

/-! ## What a walk comes to -/

variable [Gitignore] [Git] (g : Granted Cancellation)

/-- The marks a directory's listing makes. -/
def marksOf (listing : List Item) : Marks := listing.foldl (fun marks item => marks.note item.name) ⟨false, false, false⟩

/-- The rules in force among the entries of `dir`, those above it given; the walk's root has no name. -/
def entering (dir : Dir) (listing : List Item) (name : Option Name) (log : List Access) (rules : Rules) : Rules :=
  let layer := (g.layer rules dir (marksOf listing) name.isSome log).1
  match name with
  | some name => rules.enter name layer
  | none => rules.push layer

/-- `d` is what the entry `name` of `dir` opens as, or what it links to where links are followed. -/
def Opens (dir : Dir) (name : Name) (d : Dir) : Prop :=
  openDir g.disk.toFileSystem dir name = .ok d ∨
    g.walk.followLinks = true ∧ dir.openDirViaLink g.disk.toFileSystem name = .ok d

/-- A directory a walk can come to, by the names that lead to it, and the rules in force among its
entries. -/
inductive Comes : Dir → List Name → Option Rules → Prop
  | root {dir : Dir} {listing : List Item} (log log' : List Access) :
      walkDir g.disk.toFileSystem g.walk.root = .ok dir → g.disk.readDir dir = .ok listing →
      Comes dir [] ((if g.walk.ignores then some (g.ancestry dir log).1 else none).map
        (g.entering dir listing none log'))
  | beneath {parent dir : Dir} {names : List Name} {name : Name} {rules : Option Rules} {listing : List Item}
      (log : List Access) : Comes parent names rules → g.Opens parent name dir → g.disk.readDir dir = .ok listing →
      Comes dir (names ++ [name]) (rules.map (g.entering dir listing (some name) log))

/-- Whether the rules in force in `dir` or the filter drop an entry of it, the rules asked of a link
as of what it leads to. -/
def drops (rules : Option Rules) (dir : Dir) (shown : Shown) (item : Item) : Bool :=
  let isDir : Bool := match item.seen with
    | .error _ => false
    | .ok (stat, _) => stat = .dir ||
        g.walk.followLinks && (g.walk.maxDepth.all fun max => shown.names.length + 1 < max) && stat = .symlink &&
          (dir.openDirViaLink g.disk.toFileSystem item.name).isOk
  (rules.any fun rules => rules.skips item.name isDir (hidden item.name)) ||
    g.walk.keep.any fun keep => !keep (shown.child item.name).asPath

variable {g}

/-- A step yields nothing exactly of what is dropped. -/
theorem step_drops {top : Frame} {item : Item} {s s' : Entries} {r : Except Cancellation (Option WalkEntry)}
    (h : g.step top item s = (r, s')) (hdepth : top.depth = top.shown.names.length) :
    r = .ok none ↔ g.drops s.rules top.dir top.shown item = true := by
  unfold step at h
  unfold drops
  cases hseen : item.seen with
  | error e =>
    simp only [hseen] at h
    split at h
    · next hskips =>
      cases h
      exact ⟨fun _ => hskips, fun _ => rfl⟩
    · next hskips =>
      cases h
      exact ⟨fun hnone => (by cases hnone), fun hdrops => (hskips hdrops).elim⟩
  | ok seen =>
    simp only [hseen, linked_any, hdepth] at h
    split at h
    · next hskips =>
      cases h
      exact ⟨fun _ => hskips, fun _ => rfl⟩
    · next hskips =>
      refine ⟨fun hnone => ?_, fun hdrops => (hskips hdrops).elim⟩
      split at h
      · cases h
        cases hnone
      · cases h
        cases hnone

/-! ## Entering -/

/-- What entering comes to: the stack is as it was, or has the directory on top with its listing less
what the region refuses, and the rules are those in force there. -/
inductive Entered (g : Granted Cancellation) (dir : Dir) (shown : Shown) (depth : ℕ) (name : Option Name) (s : Entries) :
    Except Cancellation (Except IoError Unit) → Entries → Prop
  | stopped (stop : Cancellation) {s' : Entries} : g.Stops stop → Entered g dir shown depth name s (.error stop) s'
  | unlisted (e : IoError) {s' : Entries} : s'.stack = s.stack → s'.rules = s.rules →
      Entered g dir shown depth name s (.ok (.error e)) s'
  | entered {listing : List Item} (log : List Access) {s' : Entries} : g.disk.readDir dir = .ok listing →
      s'.stack = ⟨dir, dir.trace.lastId, shown, depth, listing.filter (g.admits dir)⟩ :: s.stack →
      .listed dir ∈ s'.log → s'.rules = s.rules.map (g.entering dir listing name log) →
      Entered g dir shown depth name s (.ok (.ok ())) s'

theorem enter_cases {dir : Dir} {shown : Shown} {depth : ℕ} {name : Option Name} {s s' : Entries}
    {r : Except Cancellation (Except IoError Unit)} (h : g.enter dir shown depth name s = (r, s'))
    (judged : g.judges dir.trace = true) : g.Grown s s' ∧ g.Entered dir shown depth name s r s' := by
  have hlisted : g.Grown s { s with log := s.log ++ [.listed dir] } :=
    ⟨fun hc => hc.snoc judged, List.prefix_append _ _, rfl⟩
  unfold enter at h
  dsimp only at h
  split at h
  · cases h
    exact ⟨hlisted, .unlisted _ rfl rfl⟩
  · next listing hlisting =>
    split at h
    · next hadmitted =>
      cases h
      obtain ⟨hlog, hstarted, hstops⟩ := admitAll_error hadmitted
      exact ⟨⟨fun hc => hlog ▸ hlisted.clean hc, hlog ▸ hlisted.kept, hstarted⟩, .stopped _ hstops⟩
    · next items marks s₁ hadmitted =>
      obtain ⟨hitems, hmarks, rfl⟩ := admitAll_ok hadmitted
      rw [List.nil_append] at hitems
      subst hitems hmarks
      split at h
      · next hrules =>
        cases h
        have hnone : s.rules = none := hrules
        refine ⟨⟨hlisted.clean, hlisted.kept, rfl⟩, .entered [] hlisting rfl (by simp) ?_⟩
        rw [hnone]
        rfl
      · next rules hrules =>
        cases h
        have hsome : s.rules = some rules := hrules
        obtain ⟨hkept, hclean⟩ :=
          guarded_layer rules dir (marksOf listing) name.isSome (g := g) (s.log ++ [.listed dir])
        refine ⟨⟨fun hc => hclean (hlisted.clean hc), hlisted.kept.trans hkept, rfl⟩,
          .entered (s.log ++ [.listed dir]) hlisting rfl (hkept.subset (by simp)) ?_⟩
        rw [hsome]
        rfl

/-! ## One entry -/

/-- A directory opened at an entry of the one on top: judged, on no way down already where links are
followed, and an entry itself where they are not. -/
structure Opened (g : Granted Cancellation) (top : Frame) (name : Name) (s : Entries) (dir : Dir) : Prop where
  judged : g.judges dir.trace = true
  opens : g.Opens top.dir name dir
  stands : (Cursor.beneath dir).Stands g.disk.toFileSystem
  fresh : g.walk.followLinks = true → dir.trace.lastId ∉ s.stack.map Frame.id
  below : g.walk.followLinks = false → ∃ stored,
    (stored, dir.trace.lastId) ∈ g.disk.entries top.dir.trace.lastId ∧ g.disk.kind dir.trace.lastId = .dir

/-- What an entry comes to: the stack is as it was, or a directory opened at it is on top and it is
yielded as a directory seen. -/
inductive Stepped (g : Granted Cancellation) (top : Frame) (name : Name) (shown : Shown) (depth : ℕ) (s : Entries) :
    Except Cancellation Found → Entries → Prop
  | stopped (stop : Cancellation) {s' : Entries} : g.Stops stop → Stepped g top name shown depth s (.error stop) s'
  | kept (found : Found) {s' : Entries} : found ≠ .seen .dir → s'.stack = s.stack → s'.rules = s.rules →
      Stepped g top name shown depth s (.ok found) s'
  | went {dir : Dir} {s' : Entries} : g.Opened top name s dir →
      g.Entered dir shown depth (some name) s (.ok (.ok ())) s' → Stepped g top name shown depth s (.ok (.seen .dir)) s'

theorem descend_cases {top : Frame} {name : Name} {stat : Kind} {id : ObjectId}
    {linked : Option (Except IoError Dir)} {shown : Shown} {depth : ℕ} {s s' : Entries}
    {r : Except Cancellation Found} (h : g.descend top name stat id linked shown depth s = (r, s'))
    (stands : (Cursor.beneath top.dir).Stands g.disk.toFileSystem) (hname : name.IsEntry)
    (hstat : stat = .dir ∨ stat = .symlink)
    (hlinked : ∀ opened ∈ linked, opened = top.dir.openDirViaLink g.disk.toFileSystem name ∧
      g.walk.followLinks = true) : g.Grown s s' ∧ g.Stepped top name shown depth s r s' := by
  unfold descend at h
  dsimp only at h
  split at h
  · cases h
    exact ⟨.refl s, .kept _ (by simp [Found.pruned]) rfl rfl⟩
  · cases h
    exact ⟨.refl s, .kept _ (by simp [Found.refused]) rfl rfl⟩
  · next dir hopened =>
    split at h
    · cases h
      exact ⟨.refl s, .kept _ (by simp [Found.pruned]) rfl rfl⟩
    · next hbeyond =>
      split at h
      · next hjudged =>
        have hopen : g.Opened top name s dir := by
          cases linked with
          | none =>
            simp only at hopened
            split at hopened
            · cases hopened
            · have hdirect := Option.some.inj hopened
              have hdir := openDir_stands stands hname hdirect
              exact ⟨hjudged, .inl hdirect, hdir.1, fresh_of_beyond hbeyond, fun _ => hdir.2⟩
          | some opened =>
            obtain ⟨hvia, hfollow⟩ := hlinked opened rfl
            cases hopened
            exact ⟨hjudged, .inr ⟨hfollow, hvia.symm⟩, openDirViaLink_stands stands hvia.symm, fresh_of_beyond hbeyond,
              fun hno => by
                rw [hfollow] at hno
                cases hno⟩
        have hseen : (if stat = .symlink then Kind.dir else stat) = .dir := by
          rcases hstat with rfl | rfl
          · rfl
          · rfl
        rw [hseen] at h
        split at h
        · next henter =>
          cases h
          obtain ⟨hgrown, hentered⟩ := enter_cases henter hjudged
          cases hentered with
          | stopped _ hstops => exact ⟨hgrown, .stopped _ hstops⟩
        · next henter =>
          cases h
          obtain ⟨hgrown, hentered⟩ := enter_cases henter hjudged
          exact ⟨hgrown, .went hopen hentered⟩
        · next henter =>
          cases h
          obtain ⟨hgrown, hentered⟩ := enter_cases henter hjudged
          cases hentered with
          | unlisted _ hstack hrules => exact ⟨hgrown, .kept _ (by simp [Found.refused]) hstack hrules⟩
      · cases h
        exact ⟨.refl s, .kept _ (by simp [Found.refused]) rfl rfl⟩

theorem find_cases {top : Frame} {name : Name} {stat : Kind} {id : ObjectId} {isDir enterable : Bool}
    {linked : Option (Except IoError Dir)} {shown : Shown} {depth : ℕ} {s s' : Entries}
    {r : Except Cancellation Found} (h : g.find top name stat id isDir enterable linked shown depth s = (r, s'))
    (stands : (Cursor.beneath top.dir).Stands g.disk.toFileSystem) (hname : name.IsEntry)
    (hfile : isDir = false → stat ≠ .dir) (hdir : isDir = true → stat = .dir ∨ stat = .symlink)
    (hlinked : ∀ opened ∈ linked, opened = top.dir.openDirViaLink g.disk.toFileSystem name ∧
      g.walk.followLinks = true) : g.Grown s s' ∧ g.Stepped top name shown depth s r s' := by
  unfold find at h
  split at h
  · have hseen : Found.seen stat ≠ .seen .dir := by simpa using hfile rfl
    split at h
    · cases h
      exact ⟨.refl s, .kept _ hseen rfl rfl⟩
    · cases h
      exact ⟨.refl s, .kept _ (by simp [Found.refused]) rfl rfl⟩
  · have hseen : Found.seen stat ≠ .seen .dir := by simpa using hfile rfl
    cases h
    exact ⟨.refl s, .kept _ hseen rfl rfl⟩
  · split at h
    · exact descend_cases h stands hname (hdir rfl) hlinked
    · cases h
      exact ⟨.refl s, .kept _ (by simp [Found.pruned]) rfl rfl⟩

theorem step_cases {top : Frame} {item : Item} {s s' : Entries} {r : Except Cancellation (Option WalkEntry)}
    (h : g.step top item s = (r, s')) (stands : (Cursor.beneath top.dir).Stands g.disk.toFileSystem)
    (hname : item.name.IsEntry) : g.Grown s s' ∧ ((r = .ok none ∧ s' = s) ∨ ∃ found,
      r = found.map (fun found => some ⟨top.shown.child item.name, top.depth + 1, found⟩) ∧
      g.Stepped top item.name (top.shown.child item.name) (top.depth + 1) s found s') := by
  unfold step at h
  dsimp only at h
  split at h
  · split at h
    · cases h
      exact ⟨.refl s, .inl ⟨rfl, rfl⟩⟩
    · next e _ _ =>
      cases h
      exact ⟨.refl s, .inr ⟨.ok (.unseen e), rfl, .kept _ (by simp) rfl rfl⟩⟩
  · next stat id _ =>
    split at h
    · cases h
      exact ⟨.refl s, .inl ⟨rfl, rfl⟩⟩
    · have hlinked (enterable : Bool) : ∀ opened ∈ g.linked top item.name stat enterable,
          opened = top.dir.openDirViaLink g.disk.toFileSystem item.name ∧ g.walk.followLinks = true := by
        intro opened hopened
        unfold linked at hopened
        split at hopened
        · next hfollow =>
          simp only [Bool.and_eq_true] at hfollow
          exact ⟨(Option.some.inj hopened).symm, hfollow.1.1⟩
        · cases hopened
      have hfile (enterable : Bool) : (decide (stat = .dir) ||
          (g.linked top item.name stat enterable).any fun opened => opened.isOk) = false → stat ≠ .dir := by
        intro hno
        rw [Bool.or_eq_false_iff] at hno
        exact of_decide_eq_false hno.1
      have hdir (enterable : Bool) : (decide (stat = .dir) ||
          (g.linked top item.name stat enterable).any fun opened => opened.isOk) = true →
            stat = .dir ∨ stat = .symlink := by
        intro hyes
        rw [linked_any] at hyes
        simp only [Bool.or_eq_true, Bool.and_eq_true, decide_eq_true_eq] at hyes
        exact hyes.imp_right fun hlinked => hlinked.1.2
      split at h
      · next stop _ hfind =>
        cases h
        obtain ⟨hgrown, hstepped⟩ := find_cases hfind stands hname (hfile _) (hdir _) (hlinked _)
        exact ⟨hgrown, .inr ⟨.error stop, rfl, hstepped⟩⟩
      · next found _ hfind =>
        cases h
        obtain ⟨hgrown, hstepped⟩ := find_cases hfind stands hname (hfile _) (hdir _) (hlinked _)
        exact ⟨hgrown, .inr ⟨.ok found, rfl, hstepped⟩⟩

end Granted

end Ral.Tree
