import Ral.Path.Walk

/-! # What a walk resolves to

On a filesystem at rest every step of a trace is an entry under the step before
it, and the position a walk returns is reached again through no link.
-/

namespace Ral.Path

variable [Host] {fs : FileSystem}

/-! ## Chains of entries -/

namespace FileSystem

/-- Each step is the entry its name finds under the one before, the first under `dir`. -/
def Entries (fs : FileSystem) : ObjectId → List Step → Prop
  | _, [] => True
  | dir, s :: steps => fs.step dir s.name = .ok s ∧ fs.Entries s.id steps

def lastOf (dir : ObjectId) (steps : List Step) : ObjectId := (steps.getLast?.map Step.id).getD dir

omit [Host] in
@[simp] theorem lastOf_concat (dir : ObjectId) (steps : List Step) (s : Step) :
    lastOf dir (steps ++ [s]) = s.id := by
  simp [lastOf]

omit [Host] in
theorem lastOf_cons (dir : ObjectId) (s : Step) (steps : List Step) :
    lastOf dir (s :: steps) = lastOf s.id steps := by
  rw [lastOf, lastOf, List.getLast?_cons]
  cases steps.getLast? <;> rfl

theorem entries_append {dir : ObjectId} {xs ys : List Step} :
    fs.Entries dir (xs ++ ys) ↔ fs.Entries dir xs ∧ fs.Entries (lastOf dir xs) ys := by
  induction xs generalizing dir with
  | nil => simp [Entries, lastOf]
  | cons s xs ih => rw [List.cons_append, Entries, Entries, ih, lastOf_cons, and_assoc]

theorem entries_concat {dir : ObjectId} {steps : List Step} {s : Step} :
    fs.Entries dir (steps ++ [s]) ↔
      fs.Entries dir steps ∧ fs.step (lastOf dir steps) s.name = .ok s := by
  rw [entries_append]
  simp [Entries]

theorem step_eq_ok {dir : ObjectId} {name : Name} {s : Step} :
    fs.step dir name = .ok s ↔ fs.searchable dir = true ∧ ∃ stored,
      (fs.entries dir).find? (fun e => fs.alike e.1 name) = some (stored, s.id) ∧
      s.kind = fs.kind s.id ∧ s.name = stepName name stored := by
  unfold step
  split
  · next hs =>
      split
      · next hfind =>
          constructor
          · intro h
            cases h
          · rintro ⟨_, stored, hstored, _⟩
            rw [hfind] at hstored
            cases hstored
      · next stored id hfind =>
          constructor
          · intro h
            cases h
            exact ⟨hs, stored, hfind, rfl, rfl⟩
          · rintro ⟨_, stored', hstored, hkind, hname⟩
            rw [hfind] at hstored
            cases hstored
            rw [← hname, ← hkind]
  · next hs =>
      constructor
      · intro h
        cases h
      · intro h
        exact (hs h.1).elim

/-- An entry is found again by the name it is stored under. -/
theorem step_stored {dir : ObjectId} {name : Name} {s : Step} (h : fs.step dir name = .ok s) :
    fs.step dir s.name = .ok s := by
  obtain ⟨hsearch, stored, hfind, hkind, hname⟩ := step_eq_ok.mp h
  apply step_eq_ok.mpr
  have hself : (fs.entries dir).find? (fun e => fs.alike e.1 stored) = some (stored, s.id) := by
    obtain ⟨_, before, after, hentries, hbefore⟩ := List.find?_eq_some_iff_append.mp hfind
    apply List.find?_eq_some_iff_append.mpr
    refine ⟨fs.alike_self stored, before, after, hentries, fun e he => ?_⟩
    have hpair := fs.distinct dir
    rw [hentries, List.pairwise_append] at hpair
    have haway := hpair.2.2 e he (stored, s.id) List.mem_cons_self
    rw [Bool.not_eq_true']
    exact haway
  have hsame : stepName s.name stored = s.name ∧ (s.name = name ∨ s.name = stored) := by
    rw [hname]
    unfold stepName
    split
    · exact ⟨rfl, .inl rfl⟩
    · exact ⟨rfl, .inr rfl⟩
  refine ⟨hsearch, stored, ?_, hkind, hsame.1.symm⟩
  rcases hsame.2 with he | he
  · rw [he, hfind]
  · rw [he, hself]

theorem step_isEntry {dir : ObjectId} {name : Name} {s : Step} (h : fs.step dir name = .ok s)
    (hname : name.IsEntry) : s.name.IsEntry := by
  obtain ⟨_, stored, hfind, _, heq⟩ := step_eq_ok.mp h
  have hstored := fs.named dir _ (List.mem_of_find?_eq_some hfind)
  rw [heq, stepName]
  split
  · exact hname
  · exact hstored

theorem step_error {dir : ObjectId} {name : Name} {e : IoError} (h : fs.step dir name = .error e) :
    e = .of .notFound "" ∨ e = .of .permissionDenied "" := by
  unfold step at h
  split at h
  · split at h
    · cases h
      exact .inl rfl
    · cases h
  · cases h
    exact .inr rfl

end FileSystem

/-! ## Where a cursor stands -/

def Node.spine : Node → List ObjectId
  | .root held => [held]
  | .under held above => above.spine ++ [held]

omit [Host] in
theorem Node.spine_ne_nil (n : Node) : n.spine ≠ [] := by
  cases n <;> simp [spine]

omit [Host] in
theorem Node.spine_inj {m n : Node} (h : m.spine = n.spine) : m = n := by
  induction m generalizing n with
  | root a =>
    cases n with
    | root b =>
      cases h
      rfl
    | under b n =>
      have hlen := congrArg List.length h
      have hpos := List.length_pos_of_ne_nil n.spine_ne_nil
      simp only [spine, List.length_append, List.length_singleton] at hlen
      omega
  | under a m ih =>
    cases n with
    | root b =>
      have hlen := congrArg List.length h
      have hpos := List.length_pos_of_ne_nil m.spine_ne_nil
      simp only [spine, List.length_append, List.length_singleton] at hlen
      omega
    | under b n =>
      obtain ⟨hspine, hlast⟩ := List.append_inj' h rfl
      cases hlast
      rw [ih hspine]

omit [Host] in
theorem Node.getLast?_spine (n : Node) : n.spine.getLast? = some n.held := by
  cases n <;> simp [spine, held]

/-- The cursor's steps are a chain of entries from the root, and its handles their objects. -/
structure Cursor.Stands (fs : FileSystem) (c : Cursor) : Prop where
  root : c.trace.root = []
  rootId : c.trace.rootId = fs.rootId
  tail : c.trace.tail = []
  entries : fs.Entries fs.rootId c.steps
  named : ∀ s ∈ c.steps, s.name.IsEntry
  spine : c.base.spine = fs.rootId :: c.trace.steps.map Step.id
  stack : ∀ x ∈ c.stack, x.1 = x.2.id

namespace Cursor

theorem root_stands : (root fs).Stands fs where
  root := rfl
  rootId := rfl
  tail := rfl
  entries := trivial
  named := by simp [steps, Cursor.root]
  spine := rfl
  stack := by simp [Cursor.root]

variable {c : Cursor}

theorem Stands.pass (h : c.Stands fs) (passed : RealPath) : (c.pass passed).Stands fs :=
  ⟨h.root, h.rootId, h.tail, h.entries, h.named, h.spine, h.stack⟩

omit [Host] in
theorem steps_push (c : Cursor) (handle : ObjectId) (s : Step) (h : s.kind = .dir) :
    (c.push handle s h).steps = c.steps ++ [s] := by
  simp [steps, push]

theorem Stands.top_eq (h : c.Stands fs) : c.top = FileSystem.lastOf fs.rootId c.steps := by
  rw [top, FileSystem.lastOf, steps]
  cases hlast : c.stack.getLast? with
  | some x =>
    have hx := h.stack x (List.mem_of_getLast? hlast)
    have hmap : (c.trace.steps ++ c.stack.map Prod.snd).getLast? = some x.2 := by
      rw [List.getLast?_append, List.getLast?_map, hlast]
      rfl
    rw [hmap]
    exact hx
  | none =>
    have hnil : c.stack = [] := List.getLast?_eq_none_iff.mp hlast
    have hheld := c.base.getLast?_spine
    rw [h.spine, List.getLast?_cons, List.getLast?_map] at hheld
    rw [hnil, List.map_nil, List.append_nil]
    exact (Option.some.inj hheld).symm

theorem Stands.push (h : c.Stands fs) {name : Name} {s : Step} (hstep : fs.step c.top name = .ok s)
    (hname : name.IsEntry) (hdir : s.kind = .dir) : (c.push s.id s hdir).Stands fs where
  root := h.root
  rootId := h.rootId
  tail := h.tail
  entries := by
    rw [steps_push, FileSystem.entries_concat, ← h.top_eq]
    exact ⟨h.entries, FileSystem.step_stored hstep⟩
  named := by
    intro t ht
    rw [steps_push] at ht
    rcases List.mem_append.mp ht with ht | ht
    · exact h.named t ht
    · rw [List.mem_singleton.mp ht]
      exact FileSystem.step_isEntry hstep hname
  spine := h.spine
  stack := by
    intro x hx
    rcases List.mem_append.mp hx with hx | hx
    · exact h.stack x hx
    · rw [List.mem_singleton.mp hx]

/-- A climb drops the last step, and at the root drops nothing. -/
theorem Stands.up (h : c.Stands fs) : c.up.Stands fs := by
  unfold Cursor.up
  dsimp only
  split
  · next hnil =>
      split
      · exact h
      · next held above hbase =>
          apply Stands.pass
          have hsteps : c.steps = c.trace.steps := by
            rw [steps, hnil, List.map_nil, List.append_nil]
          have hspine := h.spine
          have hentries := h.entries
          have hnamed := h.named
          rw [hbase, Node.spine] at hspine
          rw [hsteps] at hentries hnamed
          cases hlast : c.trace.steps.getLast? with
          | none =>
            rw [List.getLast?_eq_none_iff] at hlast
            rw [hlast, List.map_nil] at hspine
            have hlen := congrArg List.length hspine
            have hpos := List.length_pos_of_ne_nil above.spine_ne_nil
            simp only [List.length_append, List.length_singleton] at hlen
            omega
          | some s =>
            have hsplit := List.dropLast_append_getLast? s hlast
            rw [← hsplit, FileSystem.entries_concat] at hentries
            rw [← hsplit, List.map_append, List.map_singleton, ← List.cons_append] at hspine
            refine ⟨h.root, h.rootId, rfl, ?_, ?_, (List.append_inj' hspine rfl).1, by simp⟩
            · show fs.Entries fs.rootId (c.trace.steps.dropLast ++ [])
              rw [List.append_nil]
              exact hentries.1
            · intro t ht
              have ht : t ∈ c.trace.steps.dropLast ++ [] := ht
              rw [List.append_nil] at ht
              exact hnamed t (List.dropLast_subset _ ht)
  · next hne =>
      apply Stands.pass
      have hdrop : c.stack.dropLast.map Prod.snd ++ [(c.stack.getLast hne).2] = c.stack.map Prod.snd := by
        rw [← List.map_singleton, ← List.map_append, List.dropLast_append_getLast]
      have hsteps : c.steps = (c.trace.steps ++ c.stack.dropLast.map Prod.snd) ++ [(c.stack.getLast hne).2] := by
        rw [steps, List.append_assoc, hdrop]
      have hentries := h.entries
      have hnamed := h.named
      rw [hsteps] at hentries hnamed
      refine ⟨h.root, h.rootId, h.tail, (FileSystem.entries_concat.mp hentries).1, ?_, h.spine, ?_⟩
      · exact fun t ht => hnamed t (List.mem_append_left _ ht)
      · exact fun x hx => h.stack x (List.dropLast_subset _ hx)

theorem Stands.intoTop_spine (h : c.Stands fs) :
    c.intoTop.spine = fs.rootId :: c.steps.map Step.id := by
  have hfold : ∀ (stack : List (ObjectId × Step)) (n : Node), (∀ x ∈ stack, x.1 = x.2.id) →
      (stack.foldl (fun above x => Node.under x.1 above) n).spine
        = n.spine ++ stack.map fun x => x.2.id := by
    intro stack
    induction stack with
    | nil =>
      intro n _
      rw [List.map_nil, List.append_nil]
      rfl
    | cons x stack ih =>
      intro n hx
      rw [List.foldl_cons, ih _ fun y hy => hx y (List.mem_cons_of_mem _ hy), Node.spine,
        hx x List.mem_cons_self, List.append_assoc]
      rfl
  rw [intoTop, hfold c.stack c.base h.stack, h.spine, steps, List.map_append, List.map_map]
  rfl

end Cursor

/-! ## A walk in progress -/

namespace Walker

/-- The cursor stands on entries, and every name still to take is one. -/
structure Sound (fs : FileSystem) (w : Walker) : Prop where
  cursor : w.cursor.Stands fs
  names : ∀ name origin, .entry name origin ∈ w.names → name.IsEntry

theorem Sound.behind {w : Walker} (hs : w.Sound fs) {name : SpelledName} {names : List SpelledName}
    (h : w.names = name :: names) : Sound fs { w with names } := by
  refine ⟨hs.cursor, fun n o hn => hs.names n o ?_⟩
  rw [h]
  exact List.mem_cons_of_mem _ hn

theorem Sound.ahead {w : Walker} (hs : w.Sound fs) {name : SpelledName} {names : List SpelledName}
    (h : w.names = name :: names) : ∀ n o, name = .entry n o → n.IsEntry := by
  intro n o he
  apply hs.names n o
  rw [h, he]
  exact List.mem_cons_self

/-- What a walk asked for under `mode` may end on: an entry of the directory on top, a link
only where links are not followed; that directory; or, where a missing name fails the walk,
one name that finds nothing there or a link with an empty target. -/
def EndsAt (fs : FileSystem) (mode : Mode) (w : Walker) : Ended → Prop
  | .leaf child => (∃ name : Name, name.IsEntry ∧ fs.step w.cursor.top name = .ok child) ∧
      (child.kind = .symlink → mode = .noFollow)
  | .entered => True
  | .absent tail => w.missing = .fail → ∃ name : Name, tail = [name] ∧ name.IsEntry ∧
      (fs.step w.cursor.top name = .error (.of .notFound "") ∨
        ∃ s, fs.step w.cursor.top name = .ok s ∧ s.kind = .symlink ∧ fs.target s.id = [])

variable {w w' : Walker} {mode : Mode}

theorem stopped_sound (hs : w.Sound fs) {name : Name} {e : IoError} {ended : Option Ended}
    (h : w.stopped name e = .ok (w', ended)) :
    w'.Sound fs ∧ w'.missing = w.missing ∧ w'.mode = w.mode := by
  obtain ⟨hsame, hnames, _⟩ := stopped_cases h
  rw [hsame]
  exact ⟨⟨hs.cursor, fun n o hn => hs.names n o (hnames.mem hn)⟩, rfl, rfl⟩

theorem splice_sound (hs : w.Sound fs) {link : Step} {target : PathBuf} {e : Option IoError}
    (h : w.splice fs link target = (w', e)) :
    w'.Sound fs ∧ w'.missing = w.missing ∧ (w'.mode = .enter ∨ w'.mode = w.mode) := by
  rcases splice_cases h with ⟨_, passed, _, rfl, _⟩ |
    ⟨_, _, _, hmissing, _, hmode, hnames, passed, hcursor⟩
  · exact ⟨⟨hs.cursor.pass passed, hs.names⟩, rfl, .inr rfl⟩
  · refine ⟨⟨?_, fun n o hn => ?_⟩, hmissing, hmode⟩
    · rcases hcursor with hc | hc
      · rw [hc]
        exact hs.cursor.pass passed
      · have hroot : (Cursor.root fs).Stands fs := Cursor.root_stands
        rw [hc]
        exact ⟨rfl, rfl, rfl, hroot.entries, hroot.named, rfl, hroot.stack⟩
    · rw [hnames] at hn
      rcases List.mem_append.mp hn with hn | hn
      · obtain ⟨m, hm, he⟩ := List.mem_map.mp hn
        cases m with
        | entry n' o' =>
          cases he
          exact split_isEntry hm
        | parent => cases he
      · exact hs.names n o hn

theorem take_sound (hs : w.Sound fs) {name : SpelledName}
    (hname : ∀ n o, name = .entry n o → n.IsEntry) (hmode : w.mode = .enter ∨ w.mode = mode)
    {ended : Option Ended} (h : w.take fs name = .ok (w', ended)) :
    w'.Sound fs ∧ w'.missing = w.missing ∧ (w'.mode = .enter ∨ w'.mode = mode) ∧
      ∀ e, ended = some e → EndsAt fs mode w' e := by
  rcases take_cases h with ⟨rfl, rfl, rfl⟩ |
    ⟨entry, origin, rfl, ⟨e, hstopped, herror⟩ | ⟨child, hchild, hcase⟩⟩
  · exact ⟨⟨hs.cursor.up, hs.names⟩, rfl, hmode, fun e he => by cases he⟩
  · obtain ⟨hsound, hmissing, hsame⟩ := stopped_sound hs hstopped
    refine ⟨hsound, hmissing, by rw [hsame]; exact hmode, fun e' he' => ?_⟩
    obtain ⟨_, _, habsent, _, hfail⟩ := stopped_cases hstopped
    subst he'
    rcases habsent with habsent | ⟨tail, habsent⟩
    · cases habsent
    · cases habsent
      intro hmiss
      obtain ⟨rfl, hone, hkind, _⟩ := hfail (hmissing ▸ hmiss)
      cases hone
      refine ⟨entry, rfl, hname entry origin rfl, .inl ?_⟩
      have hstep := herror hkind
      rcases FileSystem.step_error hstep with rfl | rfl
      · exact hstep
      · cases hkind
  · have hentry := hname entry origin rfl
    rcases hcase with ⟨rfl, rfl, _, hnot, hlink⟩ | ⟨hdir, rfl, rfl⟩ |
      ⟨hkind, _, linked, w₁, e, hsplice, he⟩
    · refine ⟨hs, rfl, hmode, fun e he => ?_⟩
      cases he
      refine ⟨⟨entry, hentry, hchild⟩, fun hk => ?_⟩
      rcases hmode with hm | hm
      · exact (hnot hm).elim
      · rw [← hm]
        exact (hlink hk).1
    · exact ⟨⟨hs.cursor.push hchild hentry hdir, hs.names⟩, rfl, hmode, fun e he => by cases he⟩
    · have hs' : Sound fs { w with linked } := ⟨hs.cursor, hs.names⟩
      obtain ⟨hsound, hmissing, hmode₁⟩ := splice_sound hs' hsplice
      have hmode₁ : w₁.mode = .enter ∨ w₁.mode = mode := by
        rcases hmode₁ with hm | hm
        · exact .inl hm
        · rw [hm]
          exact hmode
      cases e with
      | none =>
        obtain ⟨rfl, rfl⟩ := he
        exact ⟨hsound, hmissing, hmode₁, fun e he => by cases he⟩
      | some why =>
        obtain ⟨hsound', hmissing', hsame⟩ := stopped_sound hsound he
        refine ⟨hsound', hmissing'.trans hmissing, by rw [hsame]; exact hmode₁, fun e' he' => ?_⟩
        obtain ⟨_, _, habsent, _, hfail⟩ := stopped_cases he
        subst he'
        rcases habsent with habsent | ⟨tail, habsent⟩
        · cases habsent
        · cases habsent
          intro hmiss
          obtain ⟨rfl, hone, hnotFound, _⟩ := hfail (hmissing' ▸ hmiss)
          cases hone
          rcases splice_cases hsplice with ⟨_, passed, hwhy, rfl, hcause⟩ | ⟨hnone, _⟩
          · cases hwhy
            refine ⟨entry, rfl, hentry, .inr ⟨child, hchild, hkind, ?_⟩⟩
            rcases hcause with hother | ⟨_, hempty, _⟩
            · rw [hother] at hnotFound
              cases hnotFound
            · exact hempty
          · cases hnone

/-- A walk that ends stands on entries, at what its mode allows. -/
theorem advance_sound (hs : w.Sound fs) (hmode : w.mode = .enter ∨ w.mode = mode) {ended : Ended}
    (h : w.advance fs = .ok (w', ended)) :
    w'.cursor.Stands fs ∧ w'.missing = w.missing ∧ EndsAt fs mode w' ended := by
  induction w using advance.induct fs with
  | case1 w hnil =>
    rw [advance_nil hnil] at h
    cases h
    exact ⟨hs.cursor, rfl, trivial⟩
  | case2 w name names hcons e hstep =>
    rw [advance_cons hcons, hstep] at h
    cases h
  | case3 w name names hcons w₁ e hstep =>
    rw [advance_cons hcons, hstep] at h
    cases h
    obtain ⟨hsound, hmissing, _, hends⟩ := take_sound (hs.behind hcons) (hs.ahead hcons) hmode hstep
    exact ⟨hsound.cursor, hmissing, hends _ rfl⟩
  | case4 w name names hcons w₁ hstep ih =>
    rw [advance_cons hcons, hstep] at h
    obtain ⟨hsound, hmissing, hmode₁, _⟩ := take_sound (hs.behind hcons) (hs.ahead hcons) hmode hstep
    obtain ⟨hcursor, hmissing', hends⟩ := ih hsound hmode₁ h
    exact ⟨hcursor, hmissing'.trans hmissing, hends⟩

end Walker

end Ral.Path
