import Ral.Boundary.Inhabit

/-! # Admission is exact

Alone with the table, the site frozen from a type admits a value just where the value
inhabits the type and its comparable positions agree, with each other and with the
table. Freezing and admitting both end.
-/

namespace Ral.Boundary

open Ral.Typecheck (Ty Term Unifier Reachable)

/-! ## A walk alone with the table -/

def Agrees (table : Fixings) : List Ask → Prop
  | [] => True
  | q :: qs => (∀ fixed, table (q.unit, q.var) = some fixed → fixed.side = q.side) ∧
      Agrees (table.fix q.unit q.var q.side q.pointer).2 qs

theorem against_ok_iff {c : Steps} (strict : Strict c) (table : Fixings) :
    (Walk.against table c).1 = some (.ok ()) ↔ ∃ qs, Demands c qs ∧ Agrees table qs := by
  induction c generalizing table with
  | done r s =>
    cases r with
    | ok a => exact ⟨fun _ => ⟨[], .done, trivial⟩, fun _ => rfl⟩
    | error e =>
      constructor
      · intro h
        cases h
      · rintro ⟨qs, d, -⟩
        cases d
  | stuck =>
    constructor
    · intro h
      cases h
    · rintro ⟨qs, d, -⟩
      cases d
  | ask q next ih =>
    rw [Walk.against]
    rcases Fixings.fix_cases q.unit q.var q.side q.pointer table with
      ⟨fixed, ok, found, side, old⟩ | ⟨first, found, other, eq⟩
    · rw [ok, ih (.ok ()) strict.2]
      constructor
      · rintro ⟨qs, d, agrees⟩
        refine ⟨q :: qs, .ask d, fun first found => ?_, agrees⟩
        rw [old first found, side]
      · rintro ⟨qs, d, agrees⟩
        cases d with
        | ask rest => exact ⟨_, rest, agrees.2⟩
    · obtain ⟨m, failed⟩ := strict.1 first
      rw [eq, failed]
      constructor
      · intro h
        cases h
      · rintro ⟨qs, d, agrees⟩
        cases d with
        | ask rest => exact absurd (agrees.1 first found) other

theorem against_ends {c : Steps} (calm : Calm c) (table : Fixings) : (Walk.against table c).1 ≠ none := by
  induction c generalizing table with
  | done r s => simp [Walk.against]
  | stuck => exact absurd calm id
  | ask q next ih => exact ih _ (calm _) _

theorem agrees_iff (table : Fixings) (qs : List Ask) : Agrees table qs ↔
    (∀ q ∈ qs, ∀ fixed, table (q.unit, q.var) = some fixed → fixed.side = q.side) ∧
      ∀ q ∈ qs, ∀ q' ∈ qs, (q.unit, q.var) = (q'.unit, q'.var) → q.side = q'.side := by
  induction qs generalizing table with
  | nil => simp [Agrees]
  | cons q qs ih =>
    rw [Agrees, ih]
    have grown := Fixings.extends_fix q.unit q.var q.side q.pointer table
    constructor
    · rintro ⟨first, rest, each⟩
      obtain ⟨fixed, -, stands, side, -⟩ | ⟨other, found, ne, -⟩ :=
        Fixings.fix_cases q.unit q.var q.side q.pointer table
      · have same : ∀ q' ∈ qs, (q.unit, q.var) = (q'.unit, q'.var) → q.side = q'.side := by
          intro q' mem eq
          rw [← side]
          exact rest q' mem fixed (eq ▸ stands)
        refine ⟨?_, ?_⟩
        · intro q' mem fixed' found
          rcases List.mem_cons.mp mem with rfl | mem
          · exact first fixed' found
          · exact rest q' mem fixed' (grown _ _ found)
        · intro a ha b hb eq
          rcases List.mem_cons.mp ha with rfl | ha'
          · rcases List.mem_cons.mp hb with rfl | hb'
            · rfl
            · exact same b hb' eq
          · rcases List.mem_cons.mp hb with rfl | hb'
            · exact (same a ha' eq.symm).symm
            · exact each a ha' b hb' eq
      · exact absurd (first other found) ne
    · rintro ⟨stand, each⟩
      refine ⟨stand q (by simp), fun q' mem fixed found => ?_, fun a ha b hb => each a (by simp [ha]) b (by simp [hb])⟩
      rcases Fixings.fix_new found with old | ⟨same, side⟩
      · exact stand q' (by simp [mem]) fixed old
      · rw [side]
        exact each q (by simp) q' (by simp [mem]) same.symm

/-! ## Exactness -/

/-- The values compared at one variable are on one side, the one it is fixed to. -/
structure Agreeing (u : Unifier) (t : Ty) (v : Value) (unit : UnitId) (table : Fixings) : Prop where
  within : ∀ var side side', Compares u t v var side → Compares u t v var side' → side = side'
  fixed : ∀ var side fixed, Compares u t v var side → table (unit, var) = some fixed → fixed.side = side

section
variable [FloatText]

theorem admit_ok_iff {u : Unifier} {site : Site} {T : Terms} (frozen : Frozen u site T) {t : Ty}
    (shows : Shows u T site.root t) (v : Value) (table : Fixings) :
    (Walk.against table (site.admits v ())).1 = some (.ok ()) ↔
      Inhabits u t v ∧ Agreeing u t v site.unit table := by
  have walk : Exact site.unit (site.admits v) (site.Sorted ∧ site.Valued site.root) (Fits site site.root v)
      (Meets site site.root v) := exact_run v site.root [] none
  have meets := meets_iff_compares frozen shows v
  rw [against_ok_iff walk.strict]
  constructor
  · rintro ⟨qs, demands, agrees⟩
    obtain ⟨stand, each⟩ := (agrees_iff table qs).mp agrees
    have asked : ∀ var side, Compares u t v var side → ∃ q ∈ qs, q.unit = site.unit ∧ q.var = var ∧ q.side = side := by
      intro var side compares
      obtain ⟨q, mem, hv, hs⟩ := (walk.asks qs demands var side).mpr ((meets var side).mpr compares)
      exact ⟨q, mem, (walk.met q (demands.asked mem)).1, hv, hs⟩
    refine ⟨inhabits_of_fits frozen (walk.sound qs demands) shows, fun var side side' h h' => ?_,
      fun var side fixed h found => ?_⟩
    · obtain ⟨q, mem, hu, hv, rfl⟩ := asked var side h
      obtain ⟨q', mem', hu', hv', rfl⟩ := asked var side' h'
      exact each q mem q' mem' (by rw [hu, hv, hu', hv'])
    · obtain ⟨q, mem, hu, hv, rfl⟩ := asked var side h
      exact stand q mem fixed (by rw [hu, hv, found])
  · rintro ⟨inhabits, agreeing⟩
    obtain ⟨qs, demands⟩ := walk.complete (fits_of_inhabits frozen inhabits shows)
    have compares : ∀ q ∈ qs, q.unit = site.unit ∧ Compares u t v q.var q.side := fun q mem =>
      ⟨(walk.met q (demands.asked mem)).1, (meets _ _).mp (walk.met q (demands.asked mem)).2⟩
    refine ⟨qs, demands, (agrees_iff table qs).mpr ⟨fun q mem fixed found => ?_, fun q mem q' mem' same => ?_⟩⟩
    · obtain ⟨unit, h⟩ := compares q mem
      rw [unit] at found
      exact agreeing.fixed q.var q.side fixed h found
    · have var : q.var = q'.var := congrArg Prod.snd same
      have h := (compares q mem).2
      rw [var] at h
      exact agreeing.within q'.var q.side q'.side h (compares q' mem').2

/-- Over any store the unifier reaches: freezing a type ends, admission against the site
ends in an answer, and it is yes just for the values that inhabit the type and whose
comparable positions agree. -/
theorem admission_exact {u : Unifier} (reached : Reachable u) (t : Ty) (unit : UnitId) :
    ∃ site, (∃ n, ∀ m, n ≤ m → Site.snapshot u m t unit = some site) ∧ ∀ v table,
      (Walk.against table (site.admits v ())).1 ≠ none ∧
      ((Walk.against table (site.admits v ())).1 = some (.ok ()) ↔
        Inhabits u t v ∧ Agreeing u t v unit table) := by
  obtain ⟨site, T, ends, rfl, frozen, shows⟩ := snapshot_ends reached.acyclic t unit
  refine ⟨site, ends, fun v table => ⟨?_, admit_ok_iff frozen shows v table⟩⟩
  exact against_ends ((exact_run v site.root [] none).calm ⟨frozen.sorted, frozen.valued shows⟩) table

end

/-! ## Items of one variable -/

namespace Items

def store : Unifier := (Unifier.new.freshKindedVar .COMPARABLE).2.markWeakVar .ty 0 .residual

theorem reached : Reachable store := .markWeakVar .ty 0 .residual (.freshKindedVar .COMPARABLE .new)

def unit : UnitId := ⟨0, 0⟩

def site : Site := ⟨[⟨.list 1, none⟩, ⟨.free 0 .COMPARABLE true, none⟩], 0, unit⟩

theorem snapshot (m : ℕ) (h : 5 ≤ m) : Site.snapshot store m (.list (.var 0)) unit = some site := by
  obtain ⟨k, rfl⟩ := Nat.exists_eq_add_of_le' h
  rfl

theorem one_fits : -2 ^ 63 ≤ (1 : ℤ) ∧ (1 : ℤ) < 2 ^ 63 := by decide

def mixed : Value := .list [.int ⟨1, one_fits⟩, .string "x"]

theorem inhabits : Inhabits store (.list (.var 0)) mixed := by
  have head : store.resolve (.var 0 : Ty) = .var 0 := rfl
  refine .list rfl fun v mem => ?_
  simp only [List.mem_cons, List.not_mem_nil, or_false] at mem
  rcases mem with rfl | rfl
  · exact .free head ⟨.int, by simp [Value.heads], by decide⟩ fun _ => rfl
  · exact .free head ⟨.string, by simp [Value.heads], by decide⟩ fun _ => rfl

@[reducible] def floats : FloatText := ⟨fun _ => ""⟩

end Items

open Items in
/-- A number and a text inhabit a list of comparables, and are refused. -/
theorem mixed_items_refused :
    ¬ ∀ [FloatText] (u : Unifier), Reachable u → ∀ t unit m site, Site.snapshot u m t unit = some site →
      ∀ v table, (Walk.against table (site.admits v ())).1 = some (.ok ()) ↔ Inhabits u t v := by
  intro h
  have yes := (@h floats store reached _ unit 5 site (snapshot 5 (le_refl _)) mixed .none).mpr inhabits
  cases yes

open Items in
theorem mixed_items_disagree :
    ∃ site, (∃ n, ∀ m, n ≤ m → Site.snapshot store m (.list (.var 0)) unit = some site) ∧
      ∃ e, (Walk.against .none (@Site.admits floats site mixed ())).1 = some (.error e) := by
  let _ := floats
  obtain ⟨site, ends, exact'⟩ := admission_exact reached (.list (.var 0)) unit
  obtain ⟨some', iff⟩ := exact' mixed .none
  have head : store.resolve (.var 0 : Ty) = .var 0 := rfl
  have number : Compares store (.list (.var 0)) mixed 0 .number :=
    ⟨.var 0, _, .elem rfl (List.mem_cons_self ..) (.here ..), head, by decide, rfl, rfl⟩
  have text : Compares store (.list (.var 0)) mixed 0 .text :=
    ⟨.var 0, _, .elem rfl (List.mem_cons_of_mem _ (List.mem_singleton.mpr rfl)) (.here ..), head, by decide, rfl, rfl⟩
  refine ⟨site, ends, ?_⟩
  rcases outcome : (Walk.against .none (site.admits mixed ())).1 with _ | (e | ⟨⟩)
  · exact absurd outcome some'
  · exact ⟨e, rfl⟩
  · cases (iff.mp outcome).2.within 0 _ _ number text

end Ral.Boundary
