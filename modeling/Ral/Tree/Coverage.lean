import Ral.Tree.Order

/-! # What a walk leaves out

Of a directory entered every entry the region admits is still to come, was dropped by the rules in
force there or by the filter, or was yielded; so once the directory is done with, none is missing.
-/

namespace Ral.Tree
open Ral.Path Ral.Authority

variable [Host] [Gitignore] [Git] {Cancellation : Type}

namespace Granted

/-- `left` of the directory still to come, no entry of it is missing from `out`. -/
def Accounted (g : Granted Cancellation) (out : List WalkEntry) (rules : Option Rules) (dir : Dir) (shown : Shown)
    (left : List Item) : Prop :=
  ∃ listing, g.disk.readDir dir = .ok listing ∧ ∀ item ∈ listing, g.admits dir item = true →
    item ∈ left ∨ g.drops rules dir shown item = true ∨ ∃ e ∈ out, e.shown = shown.child item.name

/-- So it is of every directory on the stack, by the rules in force in each. -/
def Covered (g : Granted Cancellation) (out : List WalkEntry) : List Frame → Option Rules → Prop
  | [], _ => True
  | f :: rest, rules => (g.Comes f.dir f.shown.names rules ∧ g.Accounted out rules f.dir f.shown f.items) ∧
      g.Covered out rest (rules.map Rules.leave)

/-- The directory yielded as `e` was listed, and none of its entries is missing from `out`. -/
def Complete (g : Granted Cancellation) (out : List WalkEntry) (log : List Access) (e : WalkEntry) : Prop :=
  ∃ dir rules, .listed dir ∈ log ∧ g.Comes dir e.shown.names rules ∧ g.Accounted out rules dir e.shown []

/-- A directory yielded is on the stack, or complete. -/
structure Covers (g : Granted Cancellation) (out : List WalkEntry) (s : Entries) : Prop where
  covered : g.Covered out s.stack s.rules
  closed : ∀ e ∈ out, e.found = .seen .dir → (∃ f ∈ s.stack, f.shown = e.shown) ∨ g.Complete out s.log e

variable {g : Granted Cancellation} {out more : List WalkEntry} {s s' : Entries}

/-! ## More yielded -/

omit [Git] in
theorem Accounted.mono {rules : Option Rules} {dir : Dir} {shown : Shown} {left : List Item}
    (h : g.Accounted out rules dir shown left) : g.Accounted (out ++ more) rules dir shown left := by
  obtain ⟨listing, hread, hitems⟩ := h
  refine ⟨listing, hread, fun item hitem hadmits => ?_⟩
  obtain hleft | hdrops | ⟨e, he, hshown⟩ := hitems item hitem hadmits
  · exact .inl hleft
  · exact .inr (.inl hdrops)
  · exact .inr (.inr ⟨e, List.mem_append_left _ he, hshown⟩)

theorem Covered.mono {stack : List Frame} {rules : Option Rules} (h : g.Covered out stack rules) :
    g.Covered (out ++ more) stack rules := by
  induction stack generalizing rules with
  | nil => trivial
  | cons f rest ih => exact ⟨⟨h.1.1, h.1.2.mono⟩, ih h.2⟩

theorem Complete.mono {log log' : List Access} {e : WalkEntry} (h : g.Complete out log e) (hlog : log <+: log') :
    g.Complete (out ++ more) log' e := by
  obtain ⟨dir, rules, hlisted, hcomes, haccounted⟩ := h
  exact ⟨dir, rules, hlog.subset hlisted, hcomes, haccounted.mono⟩

omit [Git] in
/-- One entry the fewer to come, it being dropped or yielded. -/
theorem Accounted.take {rules : Option Rules} {dir : Dir} {shown : Shown} {item : Item} {items : List Item}
    (h : g.Accounted out rules dir shown (item :: items))
    (hitem : g.drops rules dir shown item = true ∨ ∃ e ∈ out, e.shown = shown.child item.name) :
    g.Accounted out rules dir shown items := by
  obtain ⟨listing, hread, hitems⟩ := h
  refine ⟨listing, hread, fun other hother hadmits => ?_⟩
  obtain hleft | hdone := hitems other hother hadmits
  · rcases List.mem_cons.mp hleft with rfl | hleft
    · exact .inr hitem
    · exact .inl hleft
  · exact .inr hdone

/-! ## The rules left behind -/

omit [Host] [Git] in
/-- Leaving a directory gives the rules back that entering it was given. -/
theorem leave_enter {rules : Rules} {n : ℕ} (h : rules.InStep n) (name : Name) (layer : Layer) :
    (rules.enter name layer).leave = rules := by
  have hbase : rules.base < rules.names.length + 1 := by
    rw [h.names]
    omega
  simp [Rules.enter, Rules.leave, hbase]

theorem leave_entering {rules : Option Rules} {n : ℕ} (h : ∀ r ∈ rules, r.InStep n) (dir : Dir) (listing : List Item)
    (name : Name) (log : List Access) :
    (rules.map (g.entering dir listing (some name) log)).map Rules.leave = rules := by
  cases rules with
  | none => rfl
  | some r => exact congrArg some (leave_enter (h r rfl) name _)

/-! ## A turn -/

section Turn
variable {top : Frame} {rest : List Frame} {item : Item} {items : List Item} {e : WalkEntry}

theorem Covers.pop (hc : g.Covers out s) (h : g.Standing out s) (hstack : s.stack = top :: rest) (hitems : top.items = []) :
    g.Covers out { s with stack := rest, rules := s.rules.map Rules.leave } := by
  have hcovered := hc.covered
  rw [hstack] at hcovered
  obtain ⟨⟨hcomes, haccounted⟩, hrest⟩ := hcovered
  refine ⟨hrest, fun e he hfound => ?_⟩
  obtain ⟨f, hf, hshown⟩ | hcomplete := hc.closed e he hfound
  · rw [hstack] at hf
    rcases List.mem_cons.mp hf with rfl | hf
    · have hlisted := (h.frames f (hstack ▸ List.mem_cons_self)).listed
      rw [hitems] at haccounted
      rw [hshown] at hcomes haccounted
      exact .inr ⟨f.dir, s.rules, hlisted, hcomes, haccounted⟩
    · exact .inl ⟨f, hf, hshown⟩
  · exact .inr hcomplete

/-- One entry of the directory on top taken, dropped or yielded. -/
theorem Covers.take (hc : g.Covers out s) (hstack : s.stack = top :: rest) (hitems : top.items = item :: items)
    (hitem : g.drops s.rules top.dir top.shown item = true ∨
      ∃ e ∈ out ++ more, e.shown = top.shown.child item.name)
    (hmore : ∀ e ∈ more, e.found ≠ .seen .dir) (hlog : s.log <+: s'.log)
    (hstack' : s'.stack = { top with items } :: rest) (hrules : s'.rules = s.rules) : g.Covers (out ++ more) s' := by
  have hcovered := hc.covered
  rw [hstack] at hcovered
  obtain ⟨⟨hcomes, haccounted⟩, hrest⟩ := hcovered
  rw [hitems] at haccounted
  constructor
  · rw [hstack', hrules]
    exact ⟨⟨hcomes, haccounted.mono.take hitem⟩, hrest.mono⟩
  · intro e he hfound
    rcases List.mem_append.mp he with he | he
    · obtain ⟨f, hf, hshown⟩ | hcomplete := hc.closed e he hfound
      · rw [hstack] at hf
        rw [hstack']
        rcases List.mem_cons.mp hf with rfl | hf
        · exact .inl ⟨_, List.mem_cons_self, hshown⟩
        · exact .inl ⟨f, List.mem_cons_of_mem _ hf, hshown⟩
      · exact .inr (hcomplete.mono hlog)
    · exact (hmore e he hfound).elim

/-- An entry yielded, and the directory at it entered. -/
theorem Covers.enter (hc : g.Covers out s) (h : g.Standing out s) (hstack : s.stack = top :: rest)
    (hitems : top.items = item :: items) (hshown : e.shown = top.shown.child item.name) {taken : Entries}
    (htaken : taken.stack = { top with items } :: rest) (hrules : taken.rules = s.rules) (hlog : s.log <+: s'.log)
    {dir : Dir} (hopen : g.Opened { top with items } item.name taken dir)
    (hentered : g.Entered dir e.shown e.depth (some item.name) taken (.ok (.ok ())) s') : g.Covers (out ++ [e]) s' := by
  cases hentered with
  | @entered listing log _ hlisting hpushed hlisted hentering =>
  have hcovered := hc.covered
  rw [hstack] at hcovered
  obtain ⟨⟨hcomes, haccounted⟩, hrest⟩ := hcovered
  rw [hitems] at haccounted
  rw [hrules] at hentering
  constructor
  · have hleave := leave_entering (g := g) h.rules dir listing item.name log
    rw [hpushed, htaken, hentering]
    refine ⟨⟨?_, listing, hlisting, ?_⟩, ?_⟩
    · show g.Comes dir e.shown.names _
      rw [hshown]
      exact .beneath log hcomes hopen.opens hlisting
    · intro other hother hadmits
      exact .inl (List.mem_filter.mpr ⟨hother, hadmits⟩)
    · rw [hleave]
      refine ⟨⟨hcomes, haccounted.mono.take (.inr ⟨e, ?_, hshown⟩)⟩, hrest.mono⟩
      exact List.mem_append_right _ (List.mem_singleton_self e)
  · intro e' he' hfound
    rw [hpushed, htaken]
    rcases List.mem_append.mp he' with he' | he'
    · obtain ⟨f, hf, hsame⟩ | hcomplete := hc.closed e' he' hfound
      · rw [hstack] at hf
        rcases List.mem_cons.mp hf with rfl | hf
        · exact .inl ⟨_, List.mem_cons_of_mem _ List.mem_cons_self, hsame⟩
        · exact .inl ⟨f, List.mem_cons_of_mem _ (List.mem_cons_of_mem _ hf), hsame⟩
      · exact .inr (hcomplete.mono hlog)
    · rw [List.mem_singleton.mp he']
      exact .inl ⟨_, List.mem_cons_self, rfl⟩

end Turn

theorem Covers.again (hc : g.Covers out s) (h : g.Standing out s) (hturn : g.turn s = .again s') : g.Covers out s' := by
  obtain ⟨top, rest, hstack, ⟨hitems, rfl⟩ | ⟨item, items, hitems, rfl, hstep⟩⟩ := g.turn_again hturn
  · exact hc.pop h hstack hitems
  · have hdepth := (h.frames top (hstack ▸ List.mem_cons_self)).depth
    have hdrops := (step_drops hstep hdepth).mp rfl
    have htaken : g.Covers (out ++ []) { s with stack := { top with items } :: rest, polled := s.polled + 1 } :=
      hc.take hstack hitems (.inl hdrops) (by simp) List.prefix_rfl rfl rfl
    rwa [List.append_nil] at htaken

/-- A turn that yields: what is yielded is an entry of the directory on top, not dropped there. -/
theorem Covers.yields (hc : g.Covers out s) (h : g.Standing out s) (hy : g.Yielded out s.log) {e : WalkEntry}
    (hturn : g.turn s = .yields (.ok e) s') : g.Covers (out ++ [e]) s' ∧ g.Yielded (out ++ [e]) s'.log := by
  obtain ⟨hgrown, ⟨stop, hstop, -⟩ | ⟨top, rest, item, items, found, hstack, hitems, he, hdrops, hstepped⟩⟩ :=
    turn_yields h hturn
  · cases hstop
  · cases he
    have hcomes := hc.covered
    rw [hstack] at hcomes
    refine ⟨?_, hy.yield h hstack hitems hcomes.1.1 hdrops rfl rfl hgrown.kept (hgrown.clean hy.clean)⟩
    cases hstepped with
    | kept _ hfound hstack' hrules =>
      refine hc.take hstack hitems (.inr ⟨_, List.mem_append_right _ (List.mem_singleton_self _), rfl⟩) ?_ hgrown.kept
        hstack' hrules
      intro e he
      rw [List.mem_singleton.mp he]
      exact hfound
    | went hopen hentered =>
      refine hc.enter h hstack hitems rfl ?_ ?_ hgrown.kept hopen hentered
      · rfl
      · rfl

end Granted

end Ral.Tree
