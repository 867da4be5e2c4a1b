import Mathlib.Order.WellFounded
import Ral.Core.Fallible
import Ral.Path.Rewalk

/-! # The lenient walk

A walk that goes on past a name it cannot enter, beside the strict one; and both
beside a walk with no splice budget, which a cycle of links would keep for ever.
-/

namespace Ral.Path

section Walk
variable [Host]

def walkLenient (fs : FileSystem) (path : PathBuf) (mode : Mode) : Except IoError Trace :=
  (finish fs path mode .stop .splice).map Located.trace

namespace Walker

def Turns (fs : FileSystem) (w w' : Walker) : Prop :=
  ∃ name names, w.names = name :: names ∧ take fs { w with names } name = .ok (w', none)

/-- The same with the budget unspent. -/
def FreelyTurns (fs : FileSystem) (w w' : Walker) : Prop := Turns fs { w with splices := 0 } w'

/-- Where a walk with no budget comes to. -/
inductive Leads (fs : FileSystem) : Walker → Located → Prop
  | spent {w : Walker} (hnames : w.names = []) : Leads fs w (w.conclude .entered)
  | ends {w w' : Walker} {name : SpelledName} {names : List SpelledName} {ended : Ended}
      (hnames : w.names = name :: names)
      (htake : take fs { w with names, splices := 0 } name = .ok (w', some ended)) :
      Leads fs w (w'.conclude ended)
  | goes {w w' : Walker} {l : Located} (hturn : FreelyTurns fs w w') (hrest : Leads fs w' l) : Leads fs w l

/-- A walk with no budget that never ends. -/
def Endless (fs : FileSystem) (w : Walker) : Prop :=
  ∃ turn : ℕ → Walker, turn 0 = w ∧ ∀ i, FreelyTurns fs (turn i) (turn (i + 1))

variable {fs : FileSystem} {w : Walker}

/-! ## Every walk ends -/

theorem Turns.less {w' : Walker} (h : Turns fs w w') :
    Prod.Lex (· < ·) (· < ·) (MAX_HOPS + 1 - w'.splices, w'.names.length)
      (MAX_HOPS + 1 - w.splices, w.names.length) := by
  obtain ⟨name, names, hnames, htake⟩ := h
  rcases take_measure htake with ⟨hle, hs⟩ | ⟨hs, hl⟩
  · apply Prod.Lex.left
    have hs : w'.splices = w.splices + 1 := hs
    omega
  · have hs : w'.splices = w.splices := hs
    have hl : w'.names.length ≤ names.length := hl
    rw [hs]
    apply Prod.Lex.right
    rw [hnames, List.length_cons]
    omega

theorem turns_wf (fs : FileSystem) : WellFounded fun w' w => Turns fs w w' :=
  Subrelation.wf Turns.less
    (InvImage.wf (fun w : Walker => (MAX_HOPS + 1 - w.splices, w.names.length)) (Prod.lex Nat.lt_wfRel Nat.lt_wfRel).wf)

theorem turns_stop (fs : FileSystem) (turn : ℕ → Walker) : ∃ i, ¬Turns fs (turn i) (turn (i + 1)) := by
  obtain ⟨_, ⟨i, rfl⟩, hmin⟩ := (turns_wf fs).has_min (Set.range turn) ⟨_, 0, rfl⟩
  exact ⟨i, hmin _ ⟨i + 1, rfl⟩⟩

theorem advance_cases (fs : FileSystem) (w : Walker) :
    w.names = [] ∧ w.advance fs = .ok (w, .entered) ∨
    ∃ name names, w.names = name :: names ∧
      ((∃ e, take fs { w with names } name = .error e ∧ w.advance fs = .error e) ∨
        (∃ w' ended, take fs { w with names } name = .ok (w', some ended) ∧
          w.advance fs = .ok (w', ended)) ∨
        ∃ w', take fs { w with names } name = .ok (w', none) ∧ w.advance fs = w'.advance fs) := by
  cases hnames : w.names with
  | nil => exact .inl ⟨rfl, advance_nil hnames⟩
  | cons name names =>
    refine .inr ⟨name, names, rfl, ?_⟩
    rw [advance_cons hnames]
    cases htake : take fs { w with names } name with
    | error e => exact .inl ⟨e, rfl, rfl⟩
    | ok r =>
      obtain ⟨w', ended⟩ := r
      cases ended with
      | some ended => exact .inr (.inl ⟨w', ended, rfl, rfl⟩)
      | none => exact .inr (.inr ⟨w', rfl, rfl⟩)

/-! ## The strict walk and the lenient one -/

omit [Host] in
theorem settleMode_missing (w : Walker) (missing : OnMissing) :
    settleMode { w with missing } = { settleMode w with missing } := by
  unfold settleMode
  dsimp only
  split <;> rfl

omit [Host] in
theorem splice_missing (w : Walker) (missing : OnMissing) (link : Step) (target : PathBuf) :
    splice fs { w with missing } link target =
      ({ (splice fs w link target).1 with missing }, (splice fs w link target).2) := by
  unfold splice
  dsimp only
  split
  · rfl
  split
  · rfl
  · exact Prod.ext (settleMode_missing ⟨_, _, _, w.missing, _, _, _⟩ missing) rfl

omit [Host] in
theorem splice_kept {w' : Walker} {link : Step} {target : PathBuf} {e : Option IoError}
    (h : w.splice fs link target = (w', e)) : w'.missing = w.missing := by
  rcases splice_cases h with ⟨_, _, _, rfl, _⟩ | ⟨_, _, _, hmissing, _⟩
  · rfl
  · exact hmissing

omit [Host] in
theorem stopped_lenient {w' : Walker} {name : Name} {e : IoError} {ended : Option Ended}
    (hfail : w.missing = .fail) (h : w.stopped name e = .ok (w', ended)) :
    stopped { w with missing := .stop } name e = .ok ({ w' with missing := .stop }, ended) := by
  obtain ⟨_, _, _, _, hstrict⟩ := stopped_cases h
  obtain ⟨rfl, rfl, hkind, hnames, _⟩ := hstrict hfail
  unfold stopped
  dsimp only
  rw [if_pos (.inl hkind), hnames]
  rfl

/-- Whatever the strict walk does with a name but fail, the lenient one does. -/
theorem take_lenient {w' : Walker} {name : SpelledName} {ended : Option Ended}
    (hfail : w.missing = .fail) (h : take fs w name = .ok (w', ended)) :
    take fs { w with missing := .stop } name = .ok ({ w' with missing := .stop }, ended) ∧
      w'.missing = .fail ∧ ∀ tail, ended = some (.absent tail) → ∃ n, tail = [n] := by
  have hstopped : ∀ {v : Walker} {entry : Name} {e : IoError}, v.missing = .fail →
      v.stopped entry e = .ok (w', ended) →
      w'.missing = .fail ∧ ∀ tail, ended = some (.absent tail) → ∃ n, tail = [n] := by
    intro v entry e hv hs
    obtain ⟨_, _, _, _, hstrict⟩ := stopped_cases hs
    obtain ⟨rfl, rfl, _⟩ := hstrict hv
    refine ⟨hv, fun tail htail => ?_⟩
    cases htail
    exact ⟨entry, rfl⟩
  cases name with
  | parent =>
    cases h
    exact ⟨rfl, hfail, fun _ hended => by cases hended⟩
  | entry name origin =>
    unfold take at h ⊢
    dsimp only at h ⊢
    cases hstep : fs.step w.cursor.top name with
    | error e =>
      rw [hstep] at h
      exact ⟨stopped_lenient hfail h, hstopped hfail h⟩
    | ok child =>
      rw [hstep] at h
      obtain ⟨entry, id, kind⟩ := child
      cases kind with
      | symlink =>
        dsimp only at h ⊢
        split at h
        · cases h
        · next hlinks =>
            rw [if_neg hlinks]
            split at h
            · next hleaf =>
                rw [if_pos hleaf]
                cases h
                exact ⟨rfl, hfail, fun _ hended => by cases hended⟩
            · next hleaf =>
                rw [if_neg hleaf]
                have hsame := fun linked =>
                  @splice_missing fs { w with linked } .stop ⟨entry, id, .symlink⟩ (fs.target id)
                dsimp only at hsame
                rw [hsame]
                split at h
                · next w₁ hsplice =>
                    rw [hsplice]
                    cases h
                    exact ⟨rfl, (splice_kept hsplice).trans hfail, fun _ hended => by cases hended⟩
                · next w₁ e hsplice =>
                    rw [hsplice]
                    have hfail₁ := (splice_kept hsplice).trans hfail
                    exact ⟨stopped_lenient hfail₁ h, hstopped hfail₁ h⟩
      | dir =>
        dsimp only at h ⊢
        split at h
        · next hentering =>
            rw [if_pos hentering]
            cases h
            exact ⟨rfl, hfail, fun _ hended => by cases hended⟩
        · next hentering =>
            rw [if_neg hentering]
            cases h
            exact ⟨rfl, hfail, fun _ hended => by cases hended⟩
      | file | other =>
        dsimp only at h ⊢
        split at h
        · next hentering =>
            rw [if_pos hentering]
            exact ⟨stopped_lenient hfail h, hstopped hfail h⟩
        · next hentering =>
            rw [if_neg hentering]
            cases h
            exact ⟨rfl, hfail, fun _ hended => by cases hended⟩

theorem advance_lenient {w' : Walker} {ended : Ended} (hfail : w.missing = .fail)
    (h : w.advance fs = .ok (w', ended)) :
    advance fs { w with missing := .stop } = .ok ({ w' with missing := .stop }, ended) ∧
      ∀ tail, ended = .absent tail → ∃ n, tail = [n] := by
  induction w using (turns_wf fs).induction with
  | _ w ih =>
    rcases advance_cases fs w with ⟨hnames, hw⟩ | ⟨name, names, hnames, hw⟩
    · rw [hw] at h
      cases h
      refine ⟨advance_nil hnames, fun tail htail => ?_⟩
      cases htail
    have hopen : advance fs { w with missing := .stop } = _ := advance_cons hnames
    rw [hopen]
    rcases hw with ⟨e, _, hw⟩ | ⟨v, ended', htake, hw⟩ | ⟨v, htake, hw⟩
    · rw [hw] at h
      cases h
    · rw [hw] at h
      cases h
      have hfail : Walker.missing { w with names } = .fail := hfail
      obtain ⟨hlenient, _, htail⟩ := take_lenient hfail htake
      rw [hlenient]
      exact ⟨rfl, fun tail htail' => htail tail (congrArg some htail')⟩
    · rw [hw] at h
      have hfail : Walker.missing { w with names } = .fail := hfail
      obtain ⟨hlenient, hfail', _⟩ := take_lenient hfail htake
      rw [hlenient]
      exact ih v ⟨name, names, hnames, htake⟩ hfail' h

omit [Host] in
theorem conclude_missing (w : Walker) (missing : OnMissing) (ended : Ended) :
    conclude { w with missing } ended = conclude w ended := by
  cases ended <;> rfl

/-- Where the strict walk ends well the lenient one ends there too, with no name past the object but
the one a create target is given. -/
theorem run_lenient {l : Located} (hfail : w.missing = .fail) (h : w.run fs = .ok l) :
    run fs { w with missing := .stop } = .ok l ∧
      (l.trace.tail = [] ∨ ∃ dir n, l.leaf = .absent dir ∧ l.trace.tail = [n]) := by
  obtain ⟨⟨w', ended⟩, hadvance, rfl⟩ := Fallible.map_eq_ok.mp h
  obtain ⟨hlenient, htail⟩ := advance_lenient hfail hadvance
  refine ⟨?_, ?_⟩
  · rw [run, hlenient]
    exact congrArg Except.ok (conclude_missing w' .stop ended)
  · cases ended with
    | leaf child => exact .inl rfl
    | entered => exact .inl rfl
    | absent tail =>
      obtain ⟨n, rfl⟩ := htail tail rfl
      exact .inr ⟨_, n, rfl, rfl⟩

/-! ## The walk with no budget -/

abbrev after (n : ℕ) (w : Walker) : Walker := { w with splices := n + w.splices }

omit [Host] in
theorem settleMode_after (n : ℕ) (w : Walker) : settleMode (w.after n) = (settleMode w).after n := by
  unfold settleMode after
  dsimp only
  split <;> rfl

omit [Host] in
theorem splice_after (n : ℕ) (w : Walker) (link : Step) (target : PathBuf) :
    (∃ w' t, splice fs (w.after n) link target = (w', some (.looped (some t)))) ∨
      splice fs (w.after n) link target =
        ((splice fs w link target).1.after n, (splice fs w link target).2) := by
  by_cases hspent : MAX_HOPS < n + w.splices + 1
  · left
    unfold splice
    dsimp only [after]
    rw [if_pos hspent]
    exact ⟨_, _, rfl⟩
  · right
    have hleft : ¬MAX_HOPS < w.splices + 1 := by omega
    unfold splice
    dsimp only [after]
    rw [if_neg hspent, if_neg hleft]
    split
    · rfl
    · exact Prod.ext (settleMode_after n ⟨_, _, _, _, _, w.splices + 1, _⟩) rfl

omit [Host] in
theorem stopped_after (n : ℕ) (w : Walker) (name : Name) (e : IoError) :
    (w.after n).stopped name e = (w.stopped name e).map fun x => (x.1.after n, x.2) := by
  unfold stopped
  dsimp only [after]
  split
  · split
    · split <;> rfl
    · rfl
  · by_cases hlast : e.kind = .notFound ∧ w.names = [] ∧ w.mode ≠ .enter
    · rw [if_pos hlast, if_pos hlast]
      rfl
    · rw [if_neg hlast, if_neg hlast]
      rfl

omit [Host] in
theorem stopped_looped (w : Walker) (name : Name) (t : Option Trace) :
    w.stopped name (.looped t) = .error (.looped t) := by
  have hreached : w.unreached (.looped t) = .looped t := by
    unfold unreached
    split <;> rfl
  unfold stopped
  split
  · rw [if_neg (by simp [IoError.kind]), hreached]
  · rw [if_neg (by simp [IoError.kind]), hreached]

/-- Taking a name is the same however many links went before, or is refused for the budget. -/
theorem take_after (n : ℕ) (w : Walker) (name : SpelledName) :
    (∃ t, take fs (w.after n) name = .error (.looped (some t))) ∨
      take fs (w.after n) name = (take fs w name).map fun x => (x.1.after n, x.2) := by
  cases name with
  | parent => exact .inr rfl
  | entry name origin =>
    unfold take
    dsimp only [after]
    cases hstep : fs.step w.cursor.top name with
    | error e => exact .inr (stopped_after n w name e)
    | ok child =>
      obtain ⟨entry, id, kind⟩ := child
      cases kind with
      | symlink =>
        dsimp only
        by_cases hlinks : w.links = .refuse
        · rw [if_pos hlinks, if_pos hlinks]
          exact .inr rfl
        rw [if_neg hlinks, if_neg hlinks]
        by_cases hleaf : (w.names.isEmpty : Prop) ∧ w.mode = .noFollow
        · rw [if_pos hleaf, if_pos hleaf]
          exact .inr rfl
        rw [if_neg hleaf, if_neg hleaf]
        generalize (if (w.names.isEmpty : Prop) ∧ origin = .spelled then some (fs.target id)
          else w.linked) = linked
        have hsplice : (∃ w' t, splice fs { w with splices := n + w.splices, linked }
              ⟨entry, id, .symlink⟩ (fs.target id) = (w', some (.looped (some t)))) ∨ _ :=
          splice_after n { w with linked } ⟨entry, id, .symlink⟩ (fs.target id)
        rcases hsplice with ⟨w', t, hspent⟩ | hsame
        · rw [hspent]
          exact .inl ⟨t, stopped_looped w' name (some t)⟩
        · right
          rw [hsame]
          obtain ⟨w₁, e⟩ := splice fs { w with linked } ⟨entry, id, .symlink⟩ (fs.target id)
          cases e with
          | none => rfl
          | some e => exact stopped_after n w₁ name e
      | dir =>
        dsimp only
        by_cases hentering : (!w.names.isEmpty || w.mode == .enter) = true
        · rw [if_pos hentering, if_pos hentering]
          exact .inr rfl
        · rw [if_neg hentering, if_neg hentering]
          exact .inr rfl
      | file | other =>
        dsimp only
        by_cases hentering : (!w.names.isEmpty || w.mode == .enter) = true
        · rw [if_pos hentering, if_pos hentering]
          exact .inr (stopped_after n w name _)
        · rw [if_neg hentering, if_neg hentering]
          exact .inr rfl

omit [Host] in
theorem conclude_splices (w : Walker) (splices : ℕ) (ended : Ended) :
    conclude { w with splices } ended = conclude w ended := by
  cases ended <;> rfl

theorem take_free {w' : Walker} {name : SpelledName} {ended : Option Ended}
    (h : take fs w name = .ok (w', ended)) :
    ∃ v, take fs { w with splices := 0 } name = .ok (v, ended) ∧ w' = v.after w.splices := by
  have hafter : take fs (after w.splices { w with splices := 0 }) name = .ok (w', ended) := h
  rcases take_after w.splices { w with splices := 0 } name with ⟨t, hspent⟩ | hsame
  · rw [hspent] at hafter
    cases hafter
  · rw [hsame] at hafter
    obtain ⟨⟨v, ended'⟩, hv, he⟩ := Fallible.map_eq_ok.mp hafter
    cases he
    exact ⟨v, hv, rfl⟩

theorem Leads.splices {l : Located} (h : Leads fs w l) (n : ℕ) : Leads fs { w with splices := n } l := by
  cases h with
  | spent hnames =>
    rw [← conclude_splices w n]
    exact .spent hnames
  | ends hnames htake => exact .ends hnames htake
  | goes hturn hrest => exact .goes hturn hrest

/-- Two walks with no budget come to the same. -/
theorem Leads.unique {l l' : Located} (h : Leads fs w l) (h' : Leads fs w l') : l' = l := by
  induction h with
  | spent hnames =>
    cases h' with
    | spent => rfl
    | ends hnames' _ =>
      rw [hnames] at hnames'
      cases hnames'
    | goes hturn _ =>
      obtain ⟨_, _, hnames', _⟩ := hturn
      rw [show Walker.names _ = _ from hnames] at hnames'
      cases hnames'
  | ends hnames htake =>
    cases h' with
    | spent hnames' =>
      rw [hnames] at hnames'
      cases hnames'
    | ends hnames' htake' =>
      rw [hnames] at hnames'
      cases hnames'
      rw [htake] at htake'
      cases htake'
      rfl
    | goes hturn _ =>
      obtain ⟨_, _, hnames', htake'⟩ := hturn
      cases hnames.symm.trans hnames'
      rw [htake] at htake'
      cases htake'
  | goes hturn _ ih =>
    obtain ⟨_, _, hnames, htake⟩ := hturn
    cases h' with
    | spent hnames' => cases hnames'.symm.trans hnames
    | ends hnames' htake' =>
      cases hnames'.symm.trans hnames
      rw [htake] at htake'
      cases htake'
    | goes hturn' hrest' =>
      obtain ⟨_, _, hnames', htake'⟩ := hturn'
      cases hnames'.symm.trans hnames
      rw [htake] at htake'
      cases htake'
      exact ih hrest'

theorem advance_leads {w' : Walker} {ended : Ended} (h : w.advance fs = .ok (w', ended)) :
    Leads fs w (w'.conclude ended) := by
  induction w using (turns_wf fs).induction with
  | _ w ih =>
    rcases advance_cases fs w with ⟨hnames, hw⟩ | ⟨name, names, hnames, hw⟩
    · rw [hw] at h
      cases h
      exact .spent hnames
    rcases hw with ⟨e, _, hw⟩ | ⟨v, ended', htake, hw⟩ | ⟨v, htake, hw⟩
    · rw [hw] at h
      cases h
    · rw [hw] at h
      cases h
      obtain ⟨v, hfree, rfl⟩ := take_free htake
      rw [conclude_splices]
      exact .ends hnames hfree
    · rw [hw] at h
      have hrest := ih v ⟨name, names, hnames, htake⟩ h
      obtain ⟨v, hfree, rfl⟩ := take_free htake
      exact .goes ⟨name, names, hnames, hfree⟩ (hrest.splices v.splices)

/-- A walk that would never end spends its budget. -/
theorem advance_endless (h : Endless fs w) : ∃ t, w.advance fs = .error (.looped (some t)) := by
  induction w using (turns_wf fs).induction with
  | _ w ih =>
    obtain ⟨turn, hstart, hturns⟩ := h
    have hfirst : FreelyTurns fs w (turn 1) := hstart ▸ hturns 0
    obtain ⟨name, names, hnames, hfree⟩ := hfirst
    have hnames : w.names = name :: names := hnames
    rw [advance_cons hnames]
    rcases take_after w.splices { w with names, splices := 0 } name with ⟨t, hspent⟩ | hsame
    · have hspent : take fs { w with names } name = .error (.looped (some t)) := hspent
      rw [hspent]
      exact ⟨t, rfl⟩
    · rw [hfree] at hsame
      have htake : take fs { w with names } name = .ok ((turn 1).after w.splices, none) := hsame
      rw [htake]
      apply ih _ ⟨name, names, hnames, htake⟩
      -- Each turn but the first is as it was.
      refine ⟨fun i => if i = 0 then (turn 1).after w.splices else turn (i + 1), rfl, fun i => ?_⟩
      cases i with
      | zero => exact hturns 1
      | succ i => exact hturns (i + 2)

theorem Endless.of_kept {Kept : Walker → Prop}
    (h : ∀ v, Kept v → ∃ v', Kept v' ∧ FreelyTurns fs v v') (hw : Kept w) : Endless fs w := by
  choose next hkept hturn using h
  let turn : ℕ → { v // Kept v } := fun i => i.rec ⟨w, hw⟩ fun _ v => ⟨next v.1 v.2, hkept v.1 v.2⟩
  exact ⟨fun i => (turn i).1, rfl, fun i => hturn (turn i).1 (turn i).2⟩

omit [Host] in
theorem split_bytes {m : Name} (h : m.IsEntry) : split m.bytes = ⟨none, [.entry m .spelled]⟩ := by
  have hroot : m.bytes.head? ≠ some separator := fun hhead => h.2.2.2 (List.mem_of_mem_head? hhead)
  rw [split, if_neg hroot, List.splitOn_eq_singleton h.2.2.2, List.filterMap_cons, component_entry h]
  rfl

omit [Host] in
/-- A first splice of a name puts it before the names left. -/
theorem splice_entry {w : Walker} {link : Step} {m : Name} (hentry : m.IsEntry) (hfresh : w.splices = 0)
    (hfollow : w.names = [] → w.mode ≠ .noFollow) :
    ∃ w', w.splice fs link m.bytes = (w', none) ∧ w'.cursor.top = w.cursor.top ∧ w'.links = w.links ∧
      w'.names = .entry m .spliced :: w.names ∧ (w.names = [] → w'.mode ≠ .noFollow) := by
  have hbudget : ¬MAX_HOPS < w.splices + 1 := by
    rw [hfresh]
    decide
  unfold splice
  dsimp only
  rw [if_neg hbudget, if_neg hentry.1, split_bytes hentry]
  generalize hv : Walker.mk _ _ _ _ _ _ _ = v
  obtain ⟨hsame, hmode⟩ := settleMode_eq v
  refine ⟨settleMode v, rfl, ?_, ?_, ?_, fun hnames => ?_⟩
  · rw [hsame, ← hv]
    rfl
  · rw [hsame, ← hv]
  · rw [hsame, ← hv]
    rfl
  · rcases hmode with hm | hm
    · rw [hm]
      decide
    · rw [hm, ← hv]
      dsimp only
      split
      · decide
      · exact hfollow hnames

/-- Links of one directory that target one another hold a walk that meets one of them. -/
theorem endless_of_cycle {dir : ObjectId} {cycle : Name → Prop}
    (hcycle : ∀ n, cycle n → ∃ link, fs.step dir n = .ok link ∧ link.kind = .symlink ∧
      ∃ m, cycle m ∧ m.IsEntry ∧ fs.target link.id = m.bytes)
    {n : Name} {origin : Origin} {rest : List SpelledName} (hn : cycle n)
    (htop : w.cursor.top = dir) (hlinks : w.links = .splice)
    (hnames : w.names = .entry n origin :: rest) (hfollow : rest = [] → w.mode ≠ .noFollow) :
    Endless fs w := by
  apply @Endless.of_kept _ _ _ (fun v => v.cursor.top = dir ∧ v.links = .splice ∧
    ∃ n origin rest, cycle n ∧ v.names = .entry n origin :: rest ∧ (rest = [] → v.mode ≠ .noFollow))
  · rintro v ⟨htop, hlinks, n, origin, rest, hn, hnames, hfollow⟩
    obtain ⟨⟨entry, id, kind⟩, hstep, hkind, m, hm, hentry, htarget⟩ := hcycle n hn
    cases hkind
    let u : Walker := { v with names := rest, splices := 0 }
    let linked := if (u.names.isEmpty : Prop) ∧ origin = .spelled then some (fs.target id) else u.linked
    obtain ⟨v', hsplice, htop', hlinks', hnames', hfollow'⟩ :=
      @splice_entry fs { u with linked } ⟨entry, id, .symlink⟩ m hentry rfl hfollow
    rw [← htarget] at hsplice
    have hnot : ¬((u.names.isEmpty : Prop) ∧ u.mode = .noFollow) := by
      rintro ⟨hempty, hmode⟩
      exact hfollow (List.isEmpty_iff.mp hempty) hmode
    have hrefuse : u.links ≠ .refuse := by
      show v.links ≠ .refuse
      rw [hlinks]
      decide
    refine ⟨v', ⟨htop'.trans htop, hlinks'.trans hlinks, m, .spliced, rest, hm, hnames', hfollow'⟩,
      .entry n origin, rest, hnames, ?_⟩
    show take fs u (.entry n origin) = _
    rw [← htop] at hstep
    have hstep : fs.step u.cursor.top n = .ok ⟨entry, id, .symlink⟩ := hstep
    unfold take
    dsimp only
    rw [hstep]
    dsimp only
    rw [if_neg hrefuse, if_neg hnot, hsplice]
  · exact ⟨htop, hlinks, n, origin, rest, hn, hnames, hfollow⟩

end Walker

/-- A lenient walk ends where the strict one does whenever that one succeeds, with nothing left over
but the name of a create target. No walk turns for ever; what one ends on, a walk with no budget
comes to; and where such a walk would never end, as in a cycle of links, both are refused. -/
theorem lenient_refines (fs : FileSystem) :
    (∀ (start : Cursor) (names : List SpelledName) (mode : Mode) (links : Links) (l : Located),
      (Walker.new start names mode .fail links).run fs = .ok l →
        (Walker.new start names mode .stop links).run fs = .ok l ∧
          (l.trace.tail = [] ∨ ∃ dir n, l.leaf = .absent dir ∧ l.trace.tail = [n])) ∧
    (∀ (path : PathBuf) (mode : Mode) (l : Located), walk fs path mode = .ok l →
      walkLenient fs path mode = .ok l.trace) ∧
    (∀ turn : ℕ → Walker, ∃ i, ¬Walker.Turns fs (turn i) (turn (i + 1))) ∧
    (∀ (w : Walker) (l : Located), w.run fs = .ok l →
      Walker.Leads fs w l ∧ ∀ l', Walker.Leads fs w l' → l' = l) ∧
    ∀ w : Walker, Walker.Endless fs w → ∃ t, w.run fs = .error (.looped (some t)) := by
  have hrefines : ∀ (start : Cursor) (names : List SpelledName) (mode : Mode) (links : Links)
      (l : Located), (Walker.new start names mode .fail links).run fs = .ok l →
        (Walker.new start names mode .stop links).run fs = .ok l ∧
          (l.trace.tail = [] ∨ ∃ dir n, l.leaf = .absent dir ∧ l.trace.tail = [n]) := by
    intro start names mode links l hrun
    have hfail : (Walker.new start names mode .fail links).missing = .fail := by
      rw [Walker.new, (Walker.settleMode_eq _).1]
    have hstop := Walker.settleMode_missing ⟨start, names, mode, .fail, links, 0, none⟩ .stop
    rw [Walker.new, hstop]
    exact Walker.run_lenient hfail hrun
  refine ⟨hrefines, ?_, Walker.turns_stop fs, ?_, ?_⟩
  · intro path mode l hwalk
    unfold walk finish at hwalk
    unfold walkLenient finish
    split at hwalk
    · next habsolute =>
        rw [if_pos habsolute]
        dsimp only at hwalk ⊢
        rw [(hrefines _ _ _ _ l hwalk).1]
        rfl
    · cases hwalk
  · intro w l hrun
    obtain ⟨⟨w', ended⟩, hadvance, rfl⟩ := Fallible.map_eq_ok.mp hrun
    have hleads := Walker.advance_leads hadvance
    exact ⟨hleads, fun l' hl' => hleads.unique hl'⟩
  · intro w hendless
    obtain ⟨t, hadvance⟩ := Walker.advance_endless hendless
    refine ⟨t, ?_⟩
    rw [Walker.run, hadvance]
    rfl

end Walk

/-! On Linux, a name that is not there, and a link `l` to itself. -/

theorem walk_absent : ∃ l, @walk linux linkedFs [separator, 97] .follow = .ok l ∧
    l.trace.tail = [⟨[97]⟩] := by
  let _ := linux
  refine ⟨?l, ?_, ?_⟩
  rotate_left
  · show Walker.run linkedFs
      (Walker.new (Cursor.root linkedFs) [.entry ⟨[97]⟩ .spelled] .follow .fail .splice) = _
    rw [Walker.run, Walker.advance_cons rfl]
    rfl
  · rfl

/-- A create target is a success of the strict walk, and its name is left over. -/
theorem create_target_left : ¬∀ (host : Host) (fs : FileSystem) (path : PathBuf) (mode : Mode)
    (l : Located), @walk host fs path mode = .ok l →
      ∃ t, @walkLenient host fs path mode = .ok t ∧ t = l.trace ∧ t.tail = [] := by
  intro h
  obtain ⟨l, hwalk, hleft⟩ := walk_absent
  obtain ⟨t, _, rfl, hnone⟩ := h linux linkedFs _ _ l hwalk
  rw [hleft] at hnone
  cases hnone

def loopFs : FileSystem := { linkedFs with target := fun _ => [108] }

def looping : Walker :=
  Walker.new (Cursor.root loopFs) [.entry ⟨[108]⟩ .spelled] .follow .stop .splice

theorem looping_endless : @Walker.Endless linux loopFs looping := by
  let _ := linux
  have hcycle : ∀ n : Name, n = ⟨[108]⟩ → ∃ link, loopFs.step ⟨1, 2⟩ n = .ok link ∧ link.kind = .symlink ∧
      ∃ m : Name, m = ⟨[108]⟩ ∧ m.IsEntry ∧ loopFs.target link.id = m.bytes := by
    rintro n rfl
    exact ⟨⟨⟨[108]⟩, lId, .symlink⟩, rfl, rfl, ⟨[108]⟩, rfl, by decide, rfl⟩
  exact Walker.endless_of_cycle hcycle rfl rfl rfl rfl fun _ => by decide

/-- The link to the directory walked leniently, and the link to itself refused. -/
theorem lenient_refines_linked :
    (∃ l, @walk linux linkedFs [separator, 108] .follow = .ok l ∧
      @walkLenient linux linkedFs [separator, 108] .follow = .ok l.trace) ∧
    ∃ t, @Walker.run linux loopFs looping = .error (.looped (some t)) := by
  let _ := linux
  constructor
  · obtain ⟨l, hwalk, _⟩ := walk_linked
    exact ⟨l, hwalk, (lenient_refines linkedFs).2.1 _ _ l hwalk⟩
  · exact (lenient_refines loopFs).2.2.2.2 looping looping_endless

end Ral.Path
