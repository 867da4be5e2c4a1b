import Ral.Tree.Turns

/-! # The order of a walk

Every entry is an entry the region admits of a directory entered, whose own entry was yielded before
it and seen; and the names ascend, a directory's before those beneath it.
-/

namespace Ral.Tree
open Ral.Path Ral.Authority

/-! ## Names one beneath another -/

theorem lt_child (names : List Name) (n : Name) : names < names ++ [n] := by
  induction names with
  | nil => exact List.Lex.nil
  | cons a names ih => exact List.Lex.cons ih

theorem lt_sibling (names more : List Name) {n m : Name} (h : n < m) : names ++ n :: more < names ++ [m] := by
  induction names with
  | nil => exact List.Lex.rel h
  | cons a names ih => exact List.Lex.cons ih

/-- A directory and one it lists. -/
def Child (fs : FileSystem) (c p : ObjectId) : Prop := ∃ stored, (stored, c) ∈ fs.entries p ∧ fs.kind c = .dir

variable [Host] {Cancellation : Type}

namespace Granted

/-! ## What is under way -/

variable {g : Granted Cancellation}

/-- A directory on the stack: entered where its own entry was seen, what is left of it in name order
and admitted by the region. -/
structure Holds (g : Granted Cancellation) (out : List WalkEntry) (log : List Access) (f : Frame) : Prop where
  root : f.shown.root = g.walk.root
  depth : f.depth = f.shown.names.length
  id : f.id = f.dir.trace.lastId
  stands : (Cursor.beneath f.dir).Stands g.disk.toFileSystem
  sorted : f.items.Pairwise fun a b => a.name < b.name
  listed : .listed f.dir ∈ log
  items : ∃ listing, g.disk.readDir f.dir = .ok listing ∧ ∀ i ∈ f.items, i ∈ listing ∧ g.admits f.dir i = true
  seen : ∃ e ∈ out, e.shown = f.shown ∧ e.found = .seen .dir

theorem Holds.mono {out more : List WalkEntry} {log log' : List Access} {f : Frame} (h : g.Holds out log f)
    (hlog : log <+: log') : g.Holds (out ++ more) log' f where
  root := h.root
  depth := h.depth
  id := h.id
  stands := h.stands
  sorted := h.sorted
  listed := hlog.subset h.listed
  items := h.items
  seen := by
    obtain ⟨e, he, hfound⟩ := h.seen
    exact ⟨e, List.mem_append_left _ he, hfound⟩

variable [Gitignore]

/-- The walk beneath its root, `out` yielded so far. -/
structure Standing (g : Granted Cancellation) (out : List WalkEntry) (s : Entries) : Prop where
  frames : ∀ f ∈ s.stack, g.Holds out s.log f
  /-- Each directory lies beneath the next, at an entry before all that is left there. -/
  nested : s.stack.Pairwise fun upper lower => ∃ n more,
    upper.shown.names = lower.shown.names ++ n :: more ∧ ∀ i ∈ lower.items, n < i.name
  fresh : g.walk.followLinks = true → (s.stack.map Frame.id).Nodup
  lower : g.walk.followLinks = false →
    s.stack.Pairwise fun upper lower => Relation.TransGen (Child g.disk.toFileSystem) upper.id lower.id
  ahead : ∀ e ∈ out, ∀ f ∈ s.stack, ∀ i ∈ f.items, e.shown.names < f.shown.names ++ [i.name]
  rules : ∀ rules ∈ s.rules, rules.InStep s.stack.length

variable {out : List WalkEntry} {s s' : Entries}

theorem Standing.pop (h : g.Standing out s) {top : Frame} {rest : List Frame} (hstack : s.stack = top :: rest) :
    g.Standing out { s with stack := rest, rules := s.rules.map Rules.leave } where
  frames f hf := h.frames f (hstack ▸ List.mem_cons_of_mem top hf)
  nested := (List.pairwise_cons.mp (hstack ▸ h.nested)).2
  fresh hfollow := by
    have hnodup := h.fresh hfollow
    rw [hstack, List.map_cons, List.nodup_cons] at hnodup
    exact hnodup.2
  lower hno := (List.pairwise_cons.mp (hstack ▸ h.lower hno)).2
  ahead e he f hf := h.ahead e he f (hstack ▸ List.mem_cons_of_mem top hf)
  rules := by
    intro rules hrules
    obtain ⟨old, hold, rfl⟩ := Option.map_eq_some_iff.mp hrules
    have hstep := h.rules old hold
    rw [hstack] at hstep
    exact hstep.leave

/-- One entry of the directory on top taken. -/
theorem Standing.take (h : g.Standing out s) {top : Frame} {rest : List Frame} {item : Item} {items : List Item}
    (hstack : s.stack = top :: rest) (hitems : top.items = item :: items) (polled : ℕ) :
    g.Standing out { s with stack := { top with items } :: rest, polled } where
  frames f hf := by
    rcases List.mem_cons.mp hf with rfl | hf
    · have htop := h.frames top (hstack ▸ List.mem_cons_self)
      refine ⟨htop.root, htop.depth, htop.id, htop.stands, ?_, htop.listed, ?_, htop.seen⟩
      · exact (List.pairwise_cons.mp (hitems ▸ htop.sorted)).2
      · obtain ⟨listing, hread, hadmits⟩ := htop.items
        exact ⟨listing, hread, fun i hi => hadmits i (hitems ▸ List.mem_cons_of_mem item hi)⟩
    · exact h.frames f (hstack ▸ List.mem_cons_of_mem top hf)
  nested := by
    have hnested := List.pairwise_cons.mp (hstack ▸ h.nested)
    exact List.pairwise_cons.mpr hnested
  fresh hfollow := by
    have hnodup := h.fresh hfollow
    rw [hstack] at hnodup
    exact hnodup
  lower hno := by
    have hlower := List.pairwise_cons.mp (hstack ▸ h.lower hno)
    exact List.pairwise_cons.mpr hlower
  ahead e he f hf i hi := by
    rcases List.mem_cons.mp hf with rfl | hf
    · exact h.ahead e he top (hstack ▸ List.mem_cons_self) i (hitems ▸ List.mem_cons_of_mem item hi)
    · exact h.ahead e he f (hstack ▸ List.mem_cons_of_mem top hf) i hi
  rules rules hrules := by
    have hstep := h.rules rules hrules
    rw [hstack] at hstep
    exact hstep

theorem Standing.ahead_taken (h : g.Standing out s) {top : Frame} {rest : List Frame} {item : Item} {items : List Item}
    (hstack : s.stack = top :: rest) (hitems : top.items = item :: items) :
    ∀ f ∈ { top with items } :: rest, ∀ i ∈ f.items, top.shown.names ++ [item.name] < f.shown.names ++ [i.name] := by
  intro f hf i hi
  rcases List.mem_cons.mp hf with rfl | hf
  · have hsorted := (h.frames top (hstack ▸ List.mem_cons_self)).sorted
    rw [hitems, List.pairwise_cons] at hsorted
    exact lt_sibling _ [] (hsorted.1 i hi)
  · have hnested := List.pairwise_cons.mp (hstack ▸ h.nested)
    obtain ⟨n, more, hnames, hless⟩ := hnested.1 f hf
    rw [hnames, List.append_assoc, List.cons_append]
    exact lt_sibling _ _ (hless i hi)

variable [Git]

/-! ## What was yielded -/

/-- `e` is an entry the region admits and nothing drops of a directory listed, whose own entry was
seen. -/
def Beneath (g : Granted Cancellation) (out : List WalkEntry) (log : List Access) (e : WalkEntry) : Prop :=
  ∃ parent ∈ out, ∃ dir rules listing item, parent.found = .seen .dir ∧ e.shown = parent.shown.child item.name ∧
    .listed dir ∈ log ∧ g.Comes dir parent.shown.names rules ∧ g.disk.readDir dir = .ok listing ∧ item ∈ listing ∧
      g.admits dir item = true ∧ g.drops rules dir parent.shown item = false

structure Yielded (g : Granted Cancellation) (out : List WalkEntry) (log : List Access) : Prop where
  clean : g.Clean log
  rooted : ∀ e ∈ out, e.shown.root = g.walk.root ∧ e.depth = e.shown.names.length
  /-- Depth first in name order, no name twice. -/
  ordered : out.Pairwise fun a b => a.shown.names < b.shown.names
  named : ∀ e ∈ out, ∀ n ∈ e.shown.names, n.IsEntry
  beneath : ∀ e ∈ out, e.shown.names ≠ [] → g.Beneath out log e

theorem Beneath.mono {out more : List WalkEntry} {log log' : List Access} {e : WalkEntry}
    (h : g.Beneath out log e) (hlog : log <+: log') : g.Beneath (out ++ more) log' e := by
  obtain ⟨parent, hparent, dir, rules, listing, item, hfound, hshown, hlisted, hcomes⟩ := h
  exact ⟨parent, List.mem_append_left _ hparent, dir, rules, listing, item, hfound, hshown, hlog.subset hlisted,
    hcomes⟩

theorem Yielded.later {out : List WalkEntry} {log log' : List Access} (h : g.Yielded out log) (hlog : log <+: log')
    (clean : g.Clean log') : g.Yielded out log' where
  clean := clean
  rooted := h.rooted
  ordered := h.ordered
  named := h.named
  beneath e he hne := by
    have hmore : g.Beneath (out ++ []) log' e := (h.beneath e he hne).mono hlog
    rwa [List.append_nil] at hmore

section Yielding
variable {top : Frame} {rest : List Frame} {item : Item} {items : List Item} {e : WalkEntry}

theorem Yielded.yield (hy : g.Yielded out s.log) (h : g.Standing out s) (hstack : s.stack = top :: rest)
    (hitems : top.items = item :: items) (hcomes : g.Comes top.dir top.shown.names s.rules)
    (hdrops : g.drops s.rules top.dir top.shown item = false) (hshown : e.shown = top.shown.child item.name)
    (hdepth : e.depth = top.depth + 1)
    {log' : List Access} (hlog : s.log <+: log') (clean : g.Clean log') : g.Yielded (out ++ [e]) log' where
  clean := clean
  rooted := by
    intro e' he'
    have htop := h.frames top (hstack ▸ List.mem_cons_self)
    rcases List.mem_append.mp he' with he' | he'
    · exact hy.rooted e' he'
    · rw [List.mem_singleton.mp he', hshown, hdepth, htop.depth]
      exact ⟨htop.root, by simp [Shown.child]⟩
  ordered := by
    rw [List.pairwise_append]
    refine ⟨hy.ordered, List.pairwise_singleton _ _, ?_⟩
    intro e' he' last hlast
    rw [List.mem_singleton.mp hlast, hshown]
    exact h.ahead e' he' top (hstack ▸ List.mem_cons_self) item (hitems ▸ List.mem_cons_self)
  named := by
    intro e' he' n hn
    rcases List.mem_append.mp he' with he' | he'
    · exact hy.named e' he' n hn
    · have htop := h.frames top (hstack ▸ List.mem_cons_self)
      obtain ⟨parent, hparent, hsame, -⟩ := htop.seen
      obtain ⟨listing, hread, hadmits⟩ := htop.items
      rw [List.mem_singleton.mp he', hshown] at hn
      rcases List.mem_append.mp hn with hn | hn
      · exact hy.named parent hparent n (hsame ▸ hn)
      · rw [List.mem_singleton.mp hn]
        exact Disk.readDir_named hread (hadmits item (hitems ▸ List.mem_cons_self)).1
  beneath := by
    intro e' he' hne
    rcases List.mem_append.mp he' with he' | he'
    · exact (hy.beneath e' he' hne).mono hlog
    · rw [List.mem_singleton.mp he']
      have htop := h.frames top (hstack ▸ List.mem_cons_self)
      obtain ⟨parent, hparent, hsame, hseen⟩ := htop.seen
      obtain ⟨listing, hread, hadmits⟩ := htop.items
      obtain ⟨hmem, hadmitted⟩ := hadmits item (hitems ▸ List.mem_cons_self)
      rw [← hsame] at hcomes hdrops
      refine ⟨parent, List.mem_append_left _ hparent, top.dir, s.rules, listing, item, hseen, ?_,
        hlog.subset htop.listed, hcomes, hread, hmem, hadmitted, hdrops⟩
      rw [hshown, hsame]

omit [Git] in
/-- An entry yielded, and no directory entered. -/
theorem Standing.yield (h : g.Standing out s) (hstack : s.stack = top :: rest) (hitems : top.items = item :: items)
    (hshown : e.shown = top.shown.child item.name) (hlog : s.log <+: s'.log)
    (hstack' : s'.stack = { top with items } :: rest) (hrules : s'.rules = s.rules) : g.Standing (out ++ [e]) s' := by
  have htaken := h.take hstack hitems s.polled
  constructor
  case frames =>
    intro f hf
    rw [hstack'] at hf
    exact (htaken.frames f hf).mono hlog
  case nested => exact hstack' ▸ htaken.nested
  case fresh => exact hstack' ▸ htaken.fresh
  case lower => exact hstack' ▸ htaken.lower
  case ahead =>
    intro e' he' f hf i hi
    rw [hstack'] at hf
    rcases List.mem_append.mp he' with he' | he'
    · exact htaken.ahead e' he' f hf i hi
    · rw [List.mem_singleton.mp he', hshown]
      exact h.ahead_taken hstack hitems f hf i hi
  case rules =>
    intro rules hmem
    rw [hrules] at hmem
    rw [hstack']
    exact htaken.rules rules hmem

/-- An entry yielded, and the directory at it entered. -/
theorem Standing.enter (h : g.Standing out s) (hstack : s.stack = top :: rest) (hitems : top.items = item :: items)
    (hshown : e.shown = top.shown.child item.name)
    (hdepth : e.depth = top.depth + 1)
    (hfound : e.found = .seen .dir) {taken : Entries} (htaken : taken.stack = { top with items } :: rest)
    (hrules : taken.rules = s.rules) (hlog : s.log <+: s'.log) {dir : Dir} (hopen : g.Opened { top with items } item.name taken dir)
    (hentered : g.Entered dir e.shown e.depth (some item.name) taken (.ok (.ok ())) s') : g.Standing (out ++ [e]) s' := by
  cases hentered with
  | @entered listing log _ hlisting hpushed hlisted hentering =>
  have hkept : g.Standing (out ++ [e]) { s with stack := taken.stack, log := s'.log } :=
    h.yield hstack hitems hshown hlog htaken rfl
  have htop := h.frames top (hstack ▸ List.mem_cons_self)
  have hnames : e.shown.names = top.shown.names ++ [item.name] := by rw [hshown]; rfl
  constructor
  case frames =>
    intro f hf
    rw [hpushed] at hf
    rcases List.mem_cons.mp hf with rfl | hf
    · refine ⟨?_, ?_, rfl, hopen.stands, ?_, hlisted, ⟨listing, hlisting, ?_⟩,
        ⟨e, List.mem_append_right _ (List.mem_singleton_self e), rfl, hfound⟩⟩
      · show e.shown.root = g.walk.root
        rw [hshown]
        exact htop.root
      · show e.depth = e.shown.names.length
        rw [hdepth, htop.depth, hnames, List.length_append]
        rfl
      · exact (Disk.readDir_sorted hlisting).filter _
      · intro i hi
        exact ⟨(List.mem_filter.mp hi).1, (List.mem_filter.mp hi).2⟩
    · exact hkept.frames f hf
  case nested =>
    rw [hpushed, List.pairwise_cons]
    refine ⟨fun f hf => ?_, hkept.nested⟩
    rw [htaken] at hf
    show ∃ n more, e.shown.names = f.shown.names ++ n :: more ∧ ∀ i ∈ f.items, n < i.name
    rcases List.mem_cons.mp hf with rfl | hf
    · have hsorted := htop.sorted
      rw [hitems, List.pairwise_cons] at hsorted
      exact ⟨item.name, [], hnames, hsorted.1⟩
    · obtain ⟨n, more, hbelow, hless⟩ := (List.pairwise_cons.mp (hstack ▸ h.nested)).1 f hf
      refine ⟨n, more ++ [item.name], ?_, hless⟩
      rw [hnames, hbelow, List.append_assoc, List.cons_append]
  case fresh =>
    intro hfollow
    rw [hpushed, List.map_cons, List.nodup_cons]
    exact ⟨hopen.fresh hfollow, hkept.fresh hfollow⟩
  case lower =>
    intro hno
    rw [hpushed, List.pairwise_cons]
    refine ⟨fun f hf => ?_, hkept.lower hno⟩
    have hchild : Child g.disk.toFileSystem dir.trace.lastId top.id := htop.id ▸ hopen.below hno
    rw [htaken] at hf
    show Relation.TransGen (Child g.disk.toFileSystem) dir.trace.lastId f.id
    rcases List.mem_cons.mp hf with rfl | hf
    · exact .single hchild
    · exact .head hchild ((List.pairwise_cons.mp (hstack ▸ h.lower hno)).1 f hf)
  case ahead =>
    intro e' he' f hf i hi
    rw [hpushed] at hf
    rcases List.mem_cons.mp hf with rfl | hf
    · show e'.shown.names < e.shown.names ++ [i.name]
      rcases List.mem_append.mp he' with he' | he'
      · have hbefore := h.ahead e' he' top (hstack ▸ List.mem_cons_self) item (hitems ▸ List.mem_cons_self)
        rw [← hnames] at hbefore
        exact lt_trans hbefore (lt_child _ _)
      · rw [List.mem_singleton.mp he']
        exact lt_child _ _
    · exact hkept.ahead e' he' f hf i hi
  case rules =>
    intro rules' hrules'
    rw [hentering, hrules] at hrules'
    obtain ⟨rules, hmem, rfl⟩ := Option.map_eq_some_iff.mp hrules'
    have hstep := h.rules rules hmem
    rw [hpushed, htaken]
    rw [hstack] at hstep
    exact hstep.enter item.name rfl

end Yielding

/-! ## A turn -/

/-- What a turn that yields does: it takes an entry of the directory on top, and stops or yields what
the entry comes to. -/
theorem turn_yields (h : g.Standing out s) {r : Except Cancellation WalkEntry} (hturn : g.turn s = .yields r s') :
    g.Grown s s' ∧ ((∃ stop, r = .error stop ∧ g.Stops stop) ∨ ∃ top rest item items found, s.stack = top :: rest ∧
      top.items = item :: items ∧ r = .ok ⟨top.shown.child item.name, top.depth + 1, found⟩ ∧
      g.drops s.rules top.dir top.shown item = false ∧
      g.Stepped { top with items } item.name (top.shown.child item.name) (top.depth + 1)
        { s with stack := { top with items } :: rest, polled := s.polled + 1 } (.ok found) s') := by
  unfold turn at hturn
  split at hturn
  · cases hturn
  · next top rest hstack =>
    split at hturn
    · cases hturn
    · next item items hitems =>
      split at hturn
      · next stop _ hpoll =>
        cases hturn
        rw [g.poll_error hpoll]
        exact ⟨⟨id, List.prefix_rfl, rfl⟩, .inl ⟨stop, rfl, g.poll_stops hpoll⟩⟩
      · next hpoll =>
        have hpolled := g.poll_ok hpoll
        have htop := h.frames top (hstack ▸ List.mem_cons_self)
        obtain ⟨listing, hread, hadmits⟩ := htop.items
        have hname : item.name.IsEntry :=
          Disk.readDir_named hread (hadmits item (hitems ▸ List.mem_cons_self)).1
        split at hturn
        · next stop _ hstep =>
          cases hturn
          obtain ⟨hgrown, ⟨hnone, -⟩ | ⟨found, hfound, hstepped⟩⟩ := step_cases hstep htop.stands hname
          · cases hnone
          · rw [hpolled] at hgrown
            cases found with
            | ok found => cases hfound
            | error stop =>
              cases hfound
              cases hstepped with
              | stopped _ hstops => exact ⟨⟨hgrown.clean, hgrown.kept, hgrown.started⟩, .inl ⟨stop, rfl, hstops⟩⟩
        · cases hturn
        · next hstep =>
          cases hturn
          obtain ⟨hgrown, hcases⟩ := step_cases hstep htop.stands hname
          have hdrops := step_drops hstep htop.depth
          rw [hpolled] at hgrown hcases hdrops
          refine ⟨⟨hgrown.clean, hgrown.kept, hgrown.started⟩, .inr ?_⟩
          obtain ⟨hnone, -⟩ | ⟨found, hfound, hstepped⟩ := hcases
          · cases hnone
          · cases found with
            | error stop => cases hfound
            | ok found =>
              cases hfound
              refine ⟨top, rest, item, items, found, hstack, hitems, rfl, ?_, hstepped⟩
              rw [← Bool.not_eq_true]
              exact fun hdropped => (by cases hdrops.mpr hdropped)

theorem turn_ended (h : g.turn s = .ended) : s.stack = [] := by
  unfold turn at h
  split at h
  · next hstack => exact hstack
  · split at h
    · cases h
    · split at h
      · cases h
      · split at h <;> cases h

theorem Standing.again (h : g.Standing out s) (hturn : g.turn s = .again s') :
    g.Standing out s' ∧ s'.log = s.log ∧ s'.started = s.started := by
  obtain ⟨top, rest, hstack, ⟨-, rfl⟩ | ⟨item, items, hitems, rfl, -⟩⟩ := g.turn_again hturn
  · exact ⟨h.pop hstack, rfl, rfl⟩
  · exact ⟨h.take hstack hitems _, rfl, rfl⟩

theorem Standing.yields (h : g.Standing out s) {e : WalkEntry} (hturn : g.turn s = .yields (.ok e) s') :
    g.Standing (out ++ [e]) s' := by
  obtain ⟨hgrown, ⟨stop, hstop, -⟩ | ⟨top, rest, item, items, found, hstack, hitems, he, -, hstepped⟩⟩ :=
    turn_yields h hturn
  · cases hstop
  · cases he
    cases hstepped with
    | kept _ _ hstack' hrules => exact h.yield hstack hitems rfl hgrown.kept hstack' hrules
    | went hopen hentered =>
      refine h.enter hstack hitems rfl rfl rfl ?_ ?_ hgrown.kept hopen hentered
      · rfl
      · rfl

end Granted

end Ral.Tree
