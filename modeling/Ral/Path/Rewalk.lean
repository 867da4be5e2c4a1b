import Ral.Path.Resolve

/-! # A position walked again

The path of the position a walk returned, walked with links refused, enters the
same directories and reaches the same object.
-/

namespace Ral.Path

section Walk
variable [Host] {fs : FileSystem}

namespace Walker

variable {w : Walker}

/-! ## Taking a name of a position -/

theorem take_dir {w : Walker} {name : Name} {origin : Origin} {s : Step}
    (hstep : fs.step w.cursor.top name = .ok s) (hdir : s.kind = .dir) (hnames : w.names ≠ []) :
    w.take fs (.entry name origin) = .ok ({ w with cursor := w.cursor.push s.id s hdir }, none) := by
  have hentering : (!w.names.isEmpty || w.mode == .enter) = true := by
    cases hn : w.names with
    | nil => exact (hnames hn).elim
    | cons => rfl
  unfold take
  dsimp only
  rw [hstep]
  dsimp only
  split
  · next hlink =>
      rw [hdir] at hlink
      cases hlink
  · rw [if_pos hentering]
  · next hnot =>
      exact (hnot hdir).elim

variable (hlast : w.names = []) (hmode : w.mode = .noFollow)
include hlast hmode

theorem take_leaf {name : Name} {origin : Origin} {s : Step}
    (hstep : fs.step w.cursor.top name = .ok s) (hkind : s.kind ≠ .symlink) :
    w.take fs (.entry name origin) = .ok (w, some (.leaf s)) := by
  have hentering : ¬ (!w.names.isEmpty || w.mode == .enter) = true := by
    rw [hlast, hmode]
    decide
  unfold take
  dsimp only
  rw [hstep]
  dsimp only
  split
  · next hlink => exact (hkind hlink).elim
  · rw [if_neg hentering]
  · rw [if_neg hentering]

omit hlast hmode in
theorem take_refused (hlinks : w.links = .refuse) {name : Name} {origin : Origin} {s : Step}
    (hstep : fs.step w.cursor.top name = .ok s) (hkind : s.kind = .symlink) :
    w.take fs (.entry name origin) = .error (.looped none) := by
  unfold take
  dsimp only
  rw [hstep]
  dsimp only
  split
  · rw [if_pos hlinks]
  · next hdir =>
      rw [hkind] at hdir
      cases hdir
  · next hnot _ => exact (hnot hkind).elim

theorem take_absent (hmissing : w.missing = .fail) {name : Name} {origin : Origin}
    (hstep : fs.step w.cursor.top name = .error (.of .notFound "")) :
    w.take fs (.entry name origin) = .ok (w, some (.absent [name])) := by
  unfold take
  dsimp only
  rw [hstep]
  dsimp only
  rw [stopped, hmissing]
  dsimp only
  rw [if_pos ⟨rfl, hlast, by rw [hmode]; decide⟩]

end Walker

namespace Cursor

def descend (c : Cursor) (more : List Step) (h : ∀ s ∈ more, s.kind = .dir) : Cursor where
  base := c.base
  trace := c.trace
  stack := c.stack ++ more.map fun s => (s.id, s)
  baseDirs := c.baseDirs
  stackDirs := by
    intro x hx
    rcases List.mem_append.mp hx with hx | hx
    · exact c.stackDirs x hx
    · rcases List.mem_map.mp hx with ⟨s, hs, rfl⟩
      exact h s hs

end Cursor

namespace Walker

/-- Directories named one after another are entered. -/
theorem advance_descend {w : Walker} (more : List Step) (hdirs : ∀ s ∈ more, s.kind = .dir)
    (hentries : fs.Entries w.cursor.top more) {rest : List SpelledName} (hrest : rest ≠ [])
    (hnames : w.names = more.map (fun s => .entry s.name .spelled) ++ rest) :
    w.advance fs = advance fs { w with cursor := w.cursor.descend more hdirs, names := rest } := by
  induction more generalizing w with
  | nil =>
    have hsame : w.cursor.descend [] hdirs = w.cursor := by
      simp [Cursor.descend]
    have hnames : w.names = rest := hnames
    rw [hsame, ← hnames]
  | cons s more ih =>
    obtain ⟨hstep, hmore⟩ := hentries
    have hdir := hdirs s List.mem_cons_self
    rw [List.map_cons, List.cons_append] at hnames
    have hbehind : more.map (fun s => SpelledName.entry s.name .spelled) ++ rest ≠ [] := by
      intro hnil
      exact hrest (List.append_eq_nil_iff.mp hnil).2
    have htop : (w.cursor.push s.id s hdir).top = s.id := by
      simp [Cursor.top, Cursor.push]
    have htake : take fs { w with names := more.map (fun s => .entry s.name .spelled) ++ rest }
        (.entry s.name .spelled)
        = .ok ({ w with
            names := more.map (fun s => .entry s.name .spelled) ++ rest
            cursor := w.cursor.push s.id s hdir }, none) :=
      take_dir (w := { w with names := more.map (fun s => .entry s.name .spelled) ++ rest })
        hstep hdir hbehind
    rw [advance_cons hnames, htake]
    dsimp only
    rw [ih (fun t ht => hdirs t (List.mem_cons_of_mem _ ht)) (by rw [htop]; exact hmore) rfl]
    have hsame : (w.cursor.push s.id s hdir).descend more (fun t ht => hdirs t (List.mem_cons_of_mem _ ht))
        = w.cursor.descend (s :: more) hdirs := by
      simp [Cursor.descend, Cursor.push]
    rw [hsame]

end Walker

/-! ## Positions reached again -/

section Again
variable {steps : List Step} (hdirs : ∀ s ∈ steps, s.kind = .dir)
  (hentries : fs.Entries fs.rootId steps) (hnamed : ∀ s ∈ steps, s.name.IsEntry)
include hentries hnamed

theorem descend_stands : ((Cursor.root fs).descend steps hdirs).Stands fs ∧
    ((Cursor.root fs).descend steps hdirs).steps = steps := by
  have hsteps : ((Cursor.root fs).descend steps hdirs).steps = steps := by
    simp [Cursor.steps, Cursor.root, Cursor.descend, Function.comp_def]
  refine ⟨⟨rfl, rfl, rfl, ?_, ?_, rfl, ?_⟩, hsteps⟩
  · rw [hsteps]
    exact hentries
  · rw [hsteps]
    exact hnamed
  · intro x hx
    have hx : x ∈ [] ++ steps.map fun s => (s.id, s) := hx
    rw [List.nil_append] at hx
    rcases List.mem_map.mp hx with ⟨s, _, rfl⟩
    rfl

/-- Walking a position's path again comes to its last name with the directories above it entered. -/
theorem finish_asPath (root : List Name) {n : Name} (hn : n.IsEntry) :
    finish fs (RealPath.asPath ⟨root, steps.map Step.name ++ [n]⟩) .noFollow .fail .refuse =
      Walker.run fs ⟨(Cursor.root fs).descend steps hdirs, [.entry n .spelled], .noFollow, .fail,
        .refuse, 0, none⟩ := by
  have hall : ∀ m ∈ (RealPath.mk root (steps.map Step.name ++ [n])).names, m.IsEntry := by
    intro m hm
    rcases List.mem_append.mp hm with hm | hm
    · rcases List.mem_map.mp hm with ⟨s, hs, rfl⟩
      exact hnamed s hs
    · rw [List.mem_singleton.mp hm]
      exact hn
  have hsplit : (split (RealPath.asPath ⟨root, steps.map Step.name ++ [n]⟩)).names
      = steps.map (fun s => .entry s.name .spelled) ++ [.entry n .spelled] := by
    rw [RealPath.split_asPath hall, List.map_append, List.map_map]
    rfl
  have hdir : namesADir (RealPath.asPath ⟨root, steps.map Step.name ++ [n]⟩) = false := by
    rw [RealPath.namesADir_asPath hall]
    simp
  have hsettle : Walker.new (Cursor.root fs)
      (steps.map (fun s => .entry s.name .spelled) ++ [.entry n .spelled]) .noFollow .fail .refuse
      = ⟨Cursor.root fs, steps.map (fun s => .entry s.name .spelled) ++ [.entry n .spelled],
          .noFollow, .fail, .refuse, 0, none⟩ := by
    rw [Walker.new, Walker.settleMode]
    simp
  rw [finish, if_pos (RealPath.isAbsolute_asPath _), hdir, hsplit]
  simp only [Bool.false_eq_true, if_false]
  rw [hsettle, Walker.run, Walker.run,
    Walker.advance_descend steps hdirs hentries (List.cons_ne_nil _ _) rfl]

end Again

def Trace.direct (t : Trace) : Trace := { t with passed := [] }

/-- The position the walk returned is itself a link: one taken without following, or one
whose target is empty. -/
def Located.OnLink (fs : FileSystem) (l : Located) : Prop :=
  ∃ s : Step, s.kind = .symlink ∧
    (l.trace.tail = [] ∧ l.trace.steps.getLast? = some s ∨
      ∃ n, l.trace.tail = [n] ∧ fs.step l.trace.lastId n = .ok s ∧ fs.target s.id = [])

/-- What a walk under `mode` returns: a chain of entries from the root, with no link but a
last one taken without following. Its position walked again with links refused reaches the
same object by the same trace, unless it is itself a link. -/
structure Located.Resolves (fs : FileSystem) (mode : Mode) (l : Located) : Prop where
  rootId : l.trace.rootId = fs.rootId
  entries : fs.Entries fs.rootId l.trace.steps
  dirs : ∀ s ∈ l.trace.steps.dropLast, s.kind = .dir
  link : ∀ s ∈ l.trace.steps.getLast?, s.kind = .symlink → mode = .noFollow
  again : ¬ l.OnLink fs → ∃ l', finish fs l.trace.real.asPath .noFollow .fail .refuse = .ok l' ∧
    l'.trace = l.trace.direct ∧ l'.leaf = l.leaf
  refused : l.OnLink fs →
    finish fs l.trace.real.asPath .noFollow .fail .refuse = .error (.looped none)

section Ends
variable {c : Cursor} (hc : c.Stands fs)
include hc

theorem real_traceStep (s : Step) :
    (c.traceStep s).real = ⟨[], c.steps.map Step.name ++ [s.name]⟩ := by
  simp [Trace.real, Cursor.traceStep, hc.root]

theorem real_traceTail (n : Name) : (c.traceTail [n]).real = ⟨[], c.steps.map Step.name ++ [n]⟩ := by
  simp [Trace.real, Cursor.traceTail, hc.root]

theorem again_spec :
    let again := (Cursor.root fs).descend c.steps c.steps_dirs
    again.intoTop = c.intoTop ∧ again.top = c.top ∧
      (∀ s, again.traceStep s = (c.traceStep s).direct) ∧
      ∀ tail, again.traceTail tail = (c.traceTail tail).direct := by
  intro again
  obtain ⟨hagain, hsteps⟩ := descend_stands c.steps_dirs hc.entries hc.named
  have hsteps : again.steps = c.steps := hsteps
  refine ⟨?_, ?_, fun s => ?_, fun tail => ?_⟩
  · apply Node.spine_inj
    rw [hagain.intoTop_spine, hc.intoTop_spine]
    rw [show ((Cursor.root fs).descend c.steps c.steps_dirs).steps = c.steps from hsteps]
  · rw [hc.top_eq, ← hsteps]
    exact hagain.top_eq
  · simp only [Cursor.traceStep, Trace.direct, hsteps, hc.root, hc.rootId]
    rfl
  · simp only [Cursor.traceTail, Trace.direct, hsteps, hc.root, hc.rootId]
    rfl

theorem resolves_leaf {linked : Option PathBuf} {mode mode' : Mode} {names : List SpelledName}
    {missing : OnMissing} {links : Links} {splices : ℕ} {child : Step} {name : Name}
    (hname : name.IsEntry) (hchild : fs.step c.top name = .ok child)
    (hlink : child.kind = .symlink → mode = .noFollow) :
    Located.Resolves fs mode
      (Walker.conclude ⟨c, names, mode', missing, links, splices, linked⟩ (.leaf child)) := by
  have hstored := FileSystem.step_stored hchild
  have hentry := FileSystem.step_isEntry hchild hname
  obtain ⟨hnode, htop, htrace, _⟩ := again_spec hc
  have hrun := finish_asPath c.steps_dirs hc.entries hc.named [] hentry
  rw [← real_traceStep hc] at hrun
  rw [← htop] at hstored
  have hlast : (c.traceStep child).steps.getLast? = some child := by
    simp [Cursor.traceStep]
  refine ⟨hc.rootId, ?_, ?_, ?_, ?_, ?_⟩
  · rw [htop, hc.top_eq] at hstored
    exact FileSystem.entries_concat.mpr ⟨hc.entries, hstored⟩
  · show ∀ s ∈ (c.steps ++ [child]).dropLast, s.kind = .dir
    rw [List.dropLast_concat]
    exact c.steps_dirs
  · intro s hs hkind
    have hs : s ∈ (c.traceStep child).steps.getLast? := hs
    rw [hlast] at hs
    cases hs
    exact hlink hkind
  · intro hnot
    have hkind : child.kind ≠ .symlink := fun hk => hnot ⟨child, hk, .inl ⟨rfl, hlast⟩⟩
    rw [Walker.run, Walker.advance_cons rfl, Walker.take_leaf rfl rfl hstored hkind] at hrun
    refine ⟨_, hrun, htrace child, ?_⟩
    show (if child.kind = .dir then _ else _) = if child.kind = .dir then _ else _
    rw [hnode]
  · rintro ⟨s, hkind, ⟨_, hs⟩ | ⟨n, hn, _⟩⟩
    · have hs : (c.traceStep child).steps.getLast? = some s := hs
      rw [hlast] at hs
      cases hs
      refine hrun.trans ?_
      rw [Walker.run, Walker.advance_cons rfl, Walker.take_refused rfl hstored hkind]
      rfl
    · cases hn

theorem resolves_entered {linked : Option PathBuf} {mode mode' : Mode} {names : List SpelledName}
    {missing : OnMissing} {links : Links} {splices : ℕ} :
    Located.Resolves fs mode
      (Walker.conclude ⟨c, names, mode', missing, links, splices, linked⟩ .entered) := by
  have hnot : ∀ s ∈ c.steps, s.kind ≠ .symlink := by
    intro s hs hk
    rw [c.steps_dirs s hs] at hk
    cases hk
  have hreal : (c.traceTail []).real = ⟨[], c.steps.map Step.name⟩ := by
    simp [Trace.real, Cursor.traceTail, hc.root]
  refine ⟨hc.rootId, hc.entries, fun s hs => c.steps_dirs s (List.dropLast_subset _ hs), ?_, ?_, ?_⟩
  · exact fun s hs hk => (hnot s (List.mem_of_getLast? hs) hk).elim
  · intro _
    show ∃ l', finish fs (c.traceTail []).real.asPath _ _ _ = _ ∧ _
    rw [hreal]
    cases hsteps : c.steps.getLast? with
    | none =>
      rw [List.getLast?_eq_none_iff] at hsteps
      obtain ⟨hnode, _, _, htrace⟩ := again_spec hc
      have hroot : (Cursor.root fs).descend c.steps c.steps_dirs = Cursor.root fs := by
        simp [Cursor.descend, hsteps]
      rw [hroot] at hnode htrace
      have hrun : finish fs [separator] .noFollow .fail .refuse
          = .ok (Walker.conclude ⟨Cursor.root fs, [], .enter, .fail, .refuse, 0, none⟩ .entered) := by
        have hwalker : finish fs [separator] .noFollow .fail .refuse
            = Walker.run fs ⟨Cursor.root fs, [], .enter, .fail, .refuse, 0, none⟩ := rfl
        rw [hwalker, Walker.run, Walker.advance_nil rfl]
        rfl
      rw [hsteps]
      exact ⟨_, hrun, htrace [], congrArg Leaf.dir hnode⟩
    | some s =>
      have hsplit := List.dropLast_append_getLast? s hsteps
      have hdirs : ∀ t ∈ c.steps.dropLast, t.kind = .dir :=
        fun t ht => c.steps_dirs t (List.dropLast_subset _ ht)
      have hentries := hc.entries
      have hnamed := hc.named
      rw [← hsplit] at hentries hnamed
      obtain ⟨habove, hstep⟩ := FileSystem.entries_concat.mp hentries
      have hnamedAbove := fun t ht => hnamed t (List.mem_append_left _ ht)
      have hs := hnamed s (List.mem_append_right _ (List.mem_singleton_self s))
      obtain ⟨hagain, hagainSteps⟩ := descend_stands hdirs habove hnamedAbove
      rw [← hagainSteps, ← hagain.top_eq] at hstep
      have hsdir := c.steps_dirs s (List.mem_of_getLast? hsteps)
      have hrun := finish_asPath hdirs habove hnamedAbove [] hs
      rw [Walker.run, Walker.advance_cons rfl,
        Walker.take_leaf rfl rfl hstep (hnot s (List.mem_of_getLast? hsteps))] at hrun
      rw [← hsplit, List.map_append, List.map_singleton]
      refine ⟨_, hrun, ?_, ?_⟩
      · show Cursor.traceStep _ s = (c.traceTail []).direct
        simp only [Cursor.traceStep, Cursor.traceTail, Trace.direct, hagainSteps, hsplit, hc.root,
          hc.rootId]
        rfl
      · show (if s.kind = .dir then _ else _) = Leaf.dir c.intoTop
        rw [if_pos hsdir]
        congr 1
        apply Node.spine_inj
        rw [Node.spine, hagain.intoTop_spine, hc.intoTop_spine, hagainSteps, ← hsplit,
          List.map_append, List.dropLast_concat]
        rfl
  · rintro ⟨s, hk, ⟨_, hs⟩ | ⟨n, hn, _⟩⟩
    · exact (hnot s (List.mem_of_getLast? hs) hk).elim
    · cases hn

theorem resolves_absent {linked : Option PathBuf} {mode mode' : Mode} {names : List SpelledName}
    {missing : OnMissing} {links : Links} {splices : ℕ} {name : Name} (hname : name.IsEntry)
    (habsent : fs.step c.top name = .error (.of .notFound "") ∨
      ∃ s, fs.step c.top name = .ok s ∧ s.kind = .symlink ∧ fs.target s.id = []) :
    Located.Resolves fs mode
      (Walker.conclude ⟨c, names, mode', missing, links, splices, linked⟩ (.absent [name])) := by
  have hnot : ∀ s ∈ c.steps, s.kind ≠ .symlink := by
    intro s hs hk
    rw [c.steps_dirs s hs] at hk
    cases hk
  obtain ⟨hnode, htop, _, htrace⟩ := again_spec hc
  have hrun := finish_asPath c.steps_dirs hc.entries hc.named [] hname
  rw [← real_traceTail hc] at hrun
  have hlast : (c.traceTail [name]).lastId = c.top := by
    rw [hc.top_eq]
    simp [Trace.lastId, Cursor.traceTail, FileSystem.lastOf, hc.rootId]
  rw [← htop] at habsent
  refine ⟨hc.rootId, hc.entries, fun s hs => c.steps_dirs s (List.dropLast_subset _ hs), ?_, ?_, ?_⟩
  · exact fun s hs hk => (hnot s (List.mem_of_getLast? hs) hk).elim
  · intro hlink
    rcases habsent with hstep | ⟨s, hstep, hkind, hempty⟩
    · rw [Walker.run, Walker.advance_cons rfl, Walker.take_absent rfl rfl rfl hstep] at hrun
      exact ⟨_, hrun, htrace [name], congrArg Leaf.absent hnode⟩
    · refine (hlink ⟨s, hkind, .inr ⟨name, rfl, ?_, hempty⟩⟩).elim
      rw [htop, ← hlast] at hstep
      exact hstep
  · rintro ⟨s, hkind, ⟨htail, _⟩ | ⟨n, hn, hstep, _⟩⟩
    · cases htail
    · cases hn
      have hstep : fs.step (c.traceTail [name]).lastId name = .ok s := hstep
      rw [hlast, ← htop] at hstep
      rw [Walker.run, Walker.advance_cons rfl, Walker.take_refused rfl hstep hkind] at hrun
      exact hrun

end Ends

/-! ## Every walk -/

theorem run_resolves {w : Walker} (hs : w.Sound fs) (hfail : w.missing = .fail) {mode : Mode}
    (hmode : w.mode = .enter ∨ w.mode = mode) {l : Located} (h : w.run fs = .ok l) :
    l.Resolves fs mode := by
  unfold Walker.run at h
  cases hadvance : w.advance fs with
  | error e =>
    rw [hadvance] at h
    cases h
  | ok ended =>
    obtain ⟨w', ended⟩ := ended
    rw [hadvance] at h
    cases h
    obtain ⟨hcursor, hmissing, hends⟩ := Walker.advance_sound hs hmode hadvance
    cases ended with
    | leaf child =>
      obtain ⟨⟨name, hname, hchild⟩, hlink⟩ := hends
      exact resolves_leaf hcursor hname hchild hlink
    | entered => exact resolves_entered hcursor
    | absent tail =>
      obtain ⟨name, rfl, hname, habsent⟩ := hends (hmissing.trans hfail)
      exact resolves_absent hcursor hname habsent

omit [Host] in
theorem intoDir_eq {l : Located} {dir : Dir} (h : l.intoDir = some dir) :
    l.leaf = .dir dir.node ∧ dir.trace = l.trace := by
  unfold Located.intoDir at h
  split at h
  · next hleaf =>
      cases h
      exact ⟨hleaf, rfl⟩
  · cases h

theorem beneath_stands {dir : Dir} {c : Cursor} (more : List Step) (hc : c.Stands fs)
    (htrace : dir.trace.root = c.trace.root ∧ dir.trace.rootId = c.trace.rootId ∧ dir.trace.tail = [])
    (hsteps : dir.trace.steps = c.steps ++ more) (hentries : fs.Entries c.top more)
    (hnamed : ∀ s ∈ more, s.name.IsEntry)
    (hspine : dir.node.spine = c.intoTop.spine ++ more.map Step.id) :
    (Cursor.beneath dir).Stands fs := by
  have hall : (Cursor.beneath dir).steps = c.steps ++ more := by
    simp [Cursor.steps, Cursor.beneath, hsteps]
  refine ⟨htrace.1.trans hc.root, htrace.2.1.trans hc.rootId, htrace.2.2, ?_, ?_, ?_, ?_⟩
  · rw [hall, FileSystem.entries_append, ← hc.top_eq]
    exact ⟨hc.entries, hentries⟩
  · intro s hs
    rw [hall] at hs
    rcases List.mem_append.mp hs with hs | hs
    · exact hc.named s hs
    · exact hnamed s hs
  · show dir.node.spine = fs.rootId :: dir.trace.steps.map Step.id
    rw [hspine, hc.intoTop_spine, hsteps, List.map_append]
    rfl
  · simp [Cursor.beneath]

/-- A directory a walk holds stands on entries from the root. -/
theorem run_beneath {w : Walker} (hs : w.Sound fs) {l : Located} (h : w.run fs = .ok l) {dir : Dir}
    (hdir : l.intoDir = some dir) : (Cursor.beneath dir).Stands fs := by
  unfold Walker.run at h
  cases hadvance : w.advance fs with
  | error e =>
    rw [hadvance] at h
    cases h
  | ok ended =>
    obtain ⟨w', ended⟩ := ended
    rw [hadvance] at h
    cases h
    obtain ⟨hcursor, _, hends⟩ := Walker.advance_sound hs (.inr rfl) hadvance
    obtain ⟨hleaf, htrace⟩ := intoDir_eq hdir
    cases ended with
    | leaf child =>
      obtain ⟨⟨name, hname, hchild⟩, _⟩ := hends
      have htrace : dir.trace = w'.cursor.traceStep child := htrace
      have hleaf : (if child.kind = .dir then Leaf.dir (.under child.id w'.cursor.intoTop) else _)
          = .dir dir.node := hleaf
      split at hleaf
      · have hnode : Node.under child.id w'.cursor.intoTop = dir.node := Leaf.dir.inj hleaf
        apply beneath_stands [child] hcursor
        · rw [htrace]
          exact ⟨rfl, rfl, rfl⟩
        · rw [htrace]
          rfl
        · exact ⟨FileSystem.step_stored hchild, trivial⟩
        · intro s hs
          rw [List.mem_singleton.mp hs]
          exact FileSystem.step_isEntry hchild hname
        · rw [← hnode]
          rfl
      · cases hleaf
    | entered =>
      have htrace : dir.trace = w'.cursor.traceTail [] := htrace
      have hnode : w'.cursor.intoTop = dir.node := Leaf.dir.inj hleaf
      apply beneath_stands [] hcursor
      · rw [htrace]
        exact ⟨rfl, rfl, rfl⟩
      · rw [htrace]
        exact (List.append_nil _).symm
      · trivial
      · intro s hs
        cases hs
      · rw [← hnode]
        exact (List.append_nil _).symm
    | absent tail => cases hleaf

theorem start_sound {path : PathBuf} (mode : Mode) (missing : OnMissing) (links : Links) :
    (Walker.new (Cursor.root fs) (split path).names mode missing links).Sound fs := by
  obtain ⟨hsame, _⟩ := Walker.settleMode_eq
    ⟨Cursor.root fs, (split path).names, mode, missing, links, 0, none⟩
  rw [Walker.new, hsame]
  exact ⟨Cursor.root_stands, fun _ _ hn => split_isEntry hn⟩

theorem beneath_sound {dir : Dir} (hd : (Cursor.beneath dir).Stands fs) {names : List SpelledName}
    (hnames : ∀ name origin, .entry name origin ∈ names → name.IsEntry) (mode : Mode)
    (missing : OnMissing) (links : Links) :
    (Walker.new (Cursor.beneath dir) names mode missing links).Sound fs := by
  obtain ⟨hsame, _⟩ := Walker.settleMode_eq ⟨Cursor.beneath dir, names, mode, missing, links, 0, none⟩
  rw [Walker.new, hsame]
  exact ⟨hd, hnames⟩

/-- The directories some walk, and then walks on from it, may hold. -/
inductive Reached (fs : FileSystem) : Dir → Prop
  | walked {path : PathBuf} {mode : Mode} {missing : OnMissing} {links : Links} {l : Located} {dir : Dir}
      (h : finish fs path mode missing links = .ok l) (hdir : l.intoDir = some dir) : Reached fs dir
  | beneath {above dir : Dir} {names : List SpelledName} {mode : Mode} {l : Located}
      (habove : Reached fs above)
      (hnames : ∀ name origin, .entry name origin ∈ names → name.IsEntry)
      (h : above.walk fs names mode = .ok l) (hdir : l.intoDir = some dir) : Reached fs dir
  | linked {above dir : Dir} {name : Name} (habove : Reached fs above)
      (h : above.openDirViaLink fs name = .ok dir) : Reached fs dir

theorem followLink_run {dir : Dir} {name : Name} (hd : (Cursor.beneath dir).Stands fs) {l : Located}
    (h : dir.followLink fs name = .ok l) :
    ∃ w : Walker, w.Sound fs ∧ w.missing = .fail ∧ w.mode = .enter ∧ w.run fs = .ok l := by
  unfold Dir.followLink at h
  split at h
  · cases h
  · split at h
    · cases h
    · split at h
      · cases h
      · next w hsplice =>
          have hbeneath : (Walker.new (Cursor.beneath dir) [] .enter .fail .splice).Sound fs :=
            beneath_sound hd (fun _ _ hn => by cases hn) _ _ _
          obtain ⟨hsound, hmissing, hmode⟩ := Walker.splice_sound hbeneath hsplice
          refine ⟨w, hsound, hmissing, ?_, h⟩
          rcases hmode with hm | hm
          · exact hm
          · exact hm

theorem Reached.stands {dir : Dir} (h : Reached fs dir) : (Cursor.beneath dir).Stands fs := by
  induction h with
  | walked h hdir =>
    unfold finish at h
    split at h
    · exact run_beneath (start_sound _ _ _) h hdir
    · cases h
  | beneath _ hnames h hdir ih => exact run_beneath (beneath_sound ih hnames _ _ _) h hdir
  | linked _ h ih =>
    unfold Dir.openDirViaLink at h
    split at h
    · cases h
    · next l hl =>
        obtain ⟨w, hsound, _, _, hrun⟩ := followLink_run ih hl
        split at h
        · next hdir =>
            cases h
            exact run_beneath hsound hrun hdir
        · cases h

theorem finish_resolves {path : PathBuf} {mode : Mode} {l : Located}
    (h : walk fs path mode = .ok l) : l.Resolves fs mode := by
  unfold walk finish at h
  split at h
  · dsimp only at h
    split at h
    · obtain ⟨hsame, hmode⟩ := Walker.settleMode_eq
        ⟨Cursor.root fs, (split path).names, .enter, .fail, .splice, 0, none⟩
      have henter : (Walker.new (Cursor.root fs) (split path).names .enter .fail .splice).mode = .enter := by
        rcases hmode with hm | hm
        · exact hm
        · exact hm
      exact run_resolves (start_sound _ _ _) (by rw [Walker.new, hsame]) (.inl henter) h
    · obtain ⟨hsame, hmode⟩ := Walker.settleMode_eq
        ⟨Cursor.root fs, (split path).names, mode, .fail, .splice, 0, none⟩
      exact run_resolves (start_sound _ _ _) (by rw [Walker.new, hsame]) hmode h
  · cases h

/-- `..` at the root is spelled away. -/
theorem finish_parent (rest : List UInt8) (mode : Mode) (missing : OnMissing) (links : Links) :
    finish fs (separator :: dot :: dot :: separator :: rest) mode missing links
      = finish fs (separator :: rest) mode missing links := by
  have hdir : namesADir (separator :: dot :: dot :: separator :: rest) = namesADir (separator :: rest) := by
    cases rest with
    | nil => rfl
    | cons b rest =>
      simp only [namesADir, List.getLast?_cons_cons, List.dropLast_cons_cons]
      split <;> simp only [List.getLast?_cons_cons]
  have hnew : ∀ m, Walker.new (Cursor.root fs) (.parent :: (split (separator :: rest)).names) m missing links
      = { Walker.new (Cursor.root fs) (split (separator :: rest)).names m missing links with
          names := .parent :: (split (separator :: rest)).names } := by
    intro m
    cases hnames : (split (separator :: rest)).names with
    | nil => rfl
    | cons n names =>
      rw [Walker.new, Walker.new, Walker.settleMode, Walker.settleMode]
      simp only [List.getLast?_cons_cons]
      split <;> simp_all
  have hrun : ∀ m, Walker.run fs
      (Walker.new (Cursor.root fs) (.parent :: (split (separator :: rest)).names) m missing links)
      = Walker.run fs (Walker.new (Cursor.root fs) (split (separator :: rest)).names m missing links) := by
    intro m
    obtain ⟨hsame, _⟩ := Walker.settleMode_eq
      ⟨Cursor.root fs, (split (separator :: rest)).names, m, missing, links, 0, none⟩
    rw [hnew, Walker.new, hsame, Walker.run, Walker.run, Walker.advance_cons rfl]
    rfl
  rw [finish, finish, hdir, split_parent]
  simp only [hrun]
  rfl

/-! ## The walk resolves -/

/-- Every walk, from the root or on from a directory held, returns a chain of entries with no
link but a last one taken without following, whose position walked again with links refused
reaches the same object by the same steps unless it is itself a link; and a `..` at the root
stays there. -/
theorem walk_resolves (fs : FileSystem) :
    (∀ (path : PathBuf) (mode : Mode) (l : Located), walk fs path mode = .ok l → l.Resolves fs mode) ∧
    (∀ dir : Dir, Reached fs dir → ∀ (names : List SpelledName) (mode : Mode) (l : Located),
      (∀ name origin, .entry name origin ∈ names → name.IsEntry) →
      dir.walk fs names mode = .ok l → l.Resolves fs mode) ∧
    (∀ dir : Dir, Reached fs dir → ∀ (name : Name) (l : Located),
      dir.followLink fs name = .ok l → l.Resolves fs .enter) ∧
    ∀ (rest : List UInt8) (mode : Mode),
      walk fs (separator :: dot :: dot :: separator :: rest) mode = walk fs (separator :: rest) mode := by
  refine ⟨fun path mode l h => finish_resolves h, ?_, ?_, fun rest mode => finish_parent rest mode _ _⟩
  · intro dir hdir names mode l hnames h
    obtain ⟨hsame, hmode⟩ := Walker.settleMode_eq ⟨Cursor.beneath dir, names, mode, .fail, .splice, 0, none⟩
    exact run_resolves (beneath_sound hdir.stands hnames _ _ _) (by rw [Walker.new, hsame]) hmode h
  · intro dir hdir name l h
    obtain ⟨w, hsound, hmissing, hmode, hrun⟩ := followLink_run hdir.stands h
    exact run_resolves hsound hmissing (.inl hmode) hrun

end Walk

/-! A directory `d`, and a link `l` to it, on Linux. -/

def dId : ObjectId := ⟨1, 3⟩

def lId : ObjectId := ⟨1, 4⟩

def linkedFs : FileSystem where
  rootId := ⟨1, 2⟩
  kind id := if id = lId then .symlink else .dir
  entries id := if id = ⟨1, 2⟩ then [(⟨[100]⟩, dId), (⟨[108]⟩, lId)] else []
  target _ := [100]
  searchable _ := true
  alike a b := a = b
  alike_self _ := decide_eq_true rfl
  distinct id := by
    split
    · decide
    · exact .nil
  named id e he := by
    split at he
    · revert e
      decide
    · cases he

@[reducible] def linux : Host := ⟨.linux, id⟩

theorem walk_linked : ∃ l, @walk linux linkedFs [separator, 108] .follow = .ok l ∧
    l.trace.passed = [⟨[], [⟨[108]⟩]⟩] ∧ ¬ @Located.OnLink linux linkedFs l := by
  let _ := linux
  refine ⟨?l, ?_, ?_, ?_⟩
  rotate_left
  · show Walker.run linkedFs
      (Walker.new (Cursor.root linkedFs) [.entry ⟨[108]⟩ .spelled] .follow .fail .splice) = _
    rw [Walker.run, Walker.advance_cons rfl]
    change Except.map _ (Walker.advance linkedFs _) = _
    rw [Walker.advance_cons rfl]
    rfl
  · rfl
  · rintro ⟨s, hkind, ⟨_, hs⟩ | ⟨n, hn, _⟩⟩
    · have hs : some (⟨⟨[100]⟩, dId, .dir⟩ : Step) = some s := hs
      cases hs
      cases hkind
    · cases hn

theorem walk_link : ∃ l, @walk linux linkedFs [separator, 108] .noFollow = .ok l ∧
    l.trace.steps = [⟨⟨[108]⟩, lId, .symlink⟩] ∧ l.trace.tail = [] := by
  let _ := linux
  refine ⟨?l, ?_, ?_, ?_⟩
  rotate_left
  · show Walker.run linkedFs
      (Walker.new (Cursor.root linkedFs) [.entry ⟨[108]⟩ .spelled] .noFollow .fail .splice) = _
    rw [Walker.run, Walker.advance_cons rfl]
    rfl
  · rfl
  · rfl

/-- A link followed leaves the trace a position it passed, which the second walk does not pass,
and a link not followed is refused by it. -/
theorem walk_again_differs : ∃ (host : Host) (fs : FileSystem) (path : PathBuf),
    (∃ l l', @walk host fs path .follow = .ok l ∧
      @finish host fs l.trace.real.asPath .noFollow .fail .refuse = .ok l' ∧ l'.trace ≠ l.trace) ∧
    ∃ l, @walk host fs path .noFollow = .ok l ∧
      @finish host fs l.trace.real.asPath .noFollow .fail .refuse = .error (.looped none) := by
  let _ := linux
  refine ⟨linux, linkedFs, [separator, 108], ?_, ?_⟩
  · obtain ⟨l, hwalk, hpassed, hnot⟩ := walk_linked
    obtain ⟨l', hagain, htrace, _⟩ := (finish_resolves hwalk).again hnot
    refine ⟨l, l', hwalk, hagain, fun he => ?_⟩
    have hnone : l.trace.passed = [] := by
      rw [← he, htrace]
      rfl
    rw [hpassed] at hnone
    cases hnone
  · obtain ⟨l, hwalk, hsteps, htail⟩ := walk_link
    refine ⟨l, hwalk, (finish_resolves hwalk).refused ⟨⟨⟨[108]⟩, lId, .symlink⟩, rfl, .inl ⟨htail, ?_⟩⟩⟩
    rw [hsteps]
    rfl

/-- The directory the link names, reached again through no link. -/
theorem walk_resolves_linked : ∃ l l', @walk linux linkedFs [separator, 108] .follow = .ok l ∧
    @finish linux linkedFs l.trace.real.asPath .noFollow .fail .refuse = .ok l' ∧
    l'.trace = l.trace.direct ∧ l'.leaf = l.leaf := by
  let _ := linux
  obtain ⟨l, hwalk, _, hnot⟩ := walk_linked
  obtain ⟨l', hagain⟩ := ((walk_resolves linkedFs).1 _ _ l hwalk).again hnot
  exact ⟨l, l', hwalk, hagain⟩

end Ral.Path
