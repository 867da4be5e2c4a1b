import Ral.Boundary.Walks

/-! # The doors of a session

Threads admit values against one table, each admission a step at a time. What an
admission asked stands in the table; the table only grows, by what some admission met.
-/

namespace Ral.Boundary

open Ral.Typecheck (Kind)

/-! ## Modules -/

theorem exact_settled {w : Walk} {unit : UnitId} (h : ∃ r, w () = .done r ()) :
    Exact unit w True (w () = .done (.ok ()) ()) fun _ _ => False := by
  obtain ⟨r, eq⟩ := h
  cases r with
  | ok a =>
    have walk : w = pure () := funext fun _ => eq
    rw [walk]
    exact .pure rfl (by simp)
  | error e =>
    have walk : w = Asking.fail e := funext fun _ => eq
    rw [walk]
    exact .fail (by simp [Asking.fail])

theorem exports_settles [Exports] {site : Site} (fields : List (String × Value)) (schemes : List (String × Exports.Scheme))
    (scratch : Exports.Scratch) : ∃ r, Walk.exports site fields schemes scratch () = .done r () := by
  induction schemes generalizing scratch with
  | nil => exact ⟨_, rfl⟩
  | cons s rest ih =>
    obtain ⟨name, scheme⟩ := s
    unfold Walk.exports
    split
    · rcases Exports.fits scratch name scheme with ⟨answer, scratch'⟩
      match answer with
      | some (.error (found, expected)) => exact ⟨_, rfl⟩
      | some (.ok _) => exact ih scratch'
      | none => exact ih scratch'
    · exact ih _

section
variable [FloatText] {site : Site}

theorem exact_admits (v : Value) : Exact site.unit (site.admits v) (site.Sorted ∧ site.Valued site.root)
    (Fits site site.root v) (Meets site site.root v) := exact_run v site.root [] none

variable [Exports]

theorem exact_admitModule (record : Value) (schemes : List (String × Exports.Scheme)) :
    ∃ held : Prop, Exact site.unit (site.admitModule record schemes) (site.Sorted ∧ site.Valued site.root)
      (Fits site site.root record ∧ held) (Meets site site.root record) := by
  unfold Site.admitModule
  refine ⟨_, ((exact_admits record).bind (exact_settled ?_)).congr (fun h => ⟨h, trivial⟩) Iff.rfl (by simp)⟩
  split
  · exact exports_settles _ _ _
  · exact ⟨_, rfl⟩

end

/-! ## A walk among others -/

/-- The asks a walk made on its way to what is left of it, each granted. -/
inductive Along (c : Steps) : List Ask → Steps → Prop
  | here : Along c [] c
  | ask {asked : List Ask} {q : Ask} {next : Except Fixed Unit → Steps} (past : Along c asked (.ask q next)) :
      Along c (asked ++ [q]) (next (.ok ()))

namespace Along

variable {c c' : Steps} {asked : List Ask}

theorem demands (h : Along c asked c') {qs : List Ask} (d : Demands c' qs) : Demands c (asked ++ qs) := by
  induction h generalizing qs with
  | here => exact d
  | ask past ih =>
    have whole := ih (.ask d)
    rwa [List.append_assoc]

theorem strict (h : Along c asked c') (hc : Strict c) : Strict c' := by
  induction h with
  | here => exact hc
  | ask past ih => exact ih.2

theorem asked_of (h : Along c asked c') {q : Ask} (hq : c'.Asked (fun _ _ => True) q) :
    c.Asked (fun _ _ => True) q := by
  induction h with
  | here => exact hq
  | ask past ih => exact ih (.later trivial hq)

end Along

namespace Fixings

def On (table : Fixings) (q : Ask) : Prop := ∃ fixed, table (q.unit, q.var) = some fixed ∧ fixed.side = q.side

theorem On.mono {table table' : Fixings} {q : Ask} (h : table.On q) (grown : table.Extends table') : table'.On q := by
  obtain ⟨fixed, found, side⟩ := h
  exact ⟨fixed, grown _ _ found, side⟩

end Fixings

/-! ## Doors -/

section
variable [Exports]

/-- An admission under way: at its site, of its value, with its schemes where it is a
module's, and what is left of its walk. -/
structure Door where
  site : Site
  value : Value
  schemes : Option (List (String × Exports.Scheme))
  rest : Steps

namespace Door

def Admitted (d : Door) : Prop := d.rest = .done (.ok ()) ()

def Refused (d : Door) : Prop := ∃ m, d.rest = .done (.error m) ()

/-- A weak comparable variable at a position of its value, and the side there. -/
def Met (d : Door) (key : UnitId × ℕ) (side : Side) : Prop :=
  key.1 = d.site.unit ∧ Meets d.site d.site.root d.value key.2 side

variable [FloatText]

def walk (d : Door) : Walk :=
  match d.schemes with
  | none => d.site.admits d.value
  | some schemes => d.site.admitModule d.value schemes

theorem exact (d : Door) : ∃ held : Prop, Exact d.site.unit d.walk (d.site.Sorted ∧ d.site.Valued d.site.root)
    (Fits d.site d.site.root d.value ∧ held) (Meets d.site d.site.root d.value) := by
  unfold walk
  split
  · exact ⟨True, (exact_admits d.value).congr id (by simp) fun _ _ => Iff.rfl⟩
  · exact exact_admitModule d.value _

theorem strict (d : Door) : Strict (d.walk ()) := by
  obtain ⟨_, exact'⟩ := d.exact
  exact exact'.strict

theorem met_of_asked {d : Door} {q : Ask} (h : (d.walk ()).Asked (fun _ _ => True) q) :
    d.Met (q.unit, q.var) q.side := by
  obtain ⟨_, exact'⟩ := d.exact
  exact exact'.met q h

/-- Refused, or all it asked so far stands. -/
def Kept (table : Fixings) (d : Door) : Prop :=
  (∃ asked, Along (d.walk ()) asked d.rest ∧ ∀ q ∈ asked, table.On q) ∨ d.Refused

theorem Kept.mono {table table' : Fixings} {d : Door} (h : d.Kept table) (grown : table.Extends table') :
    d.Kept table' := by
  rcases h with ⟨asked, along, on⟩ | refused
  · exact Or.inl ⟨asked, along, fun q mem => (on q mem).mono grown⟩
  · exact Or.inr refused

theorem Kept.admitted {table : Fixings} {d : Door} (h : d.Kept table) (admitted : d.Admitted) :
    Fits d.site d.site.root d.value ∧ ∀ key side, d.Met key side →
      ∃ fixed, table key = some fixed ∧ fixed.side = side := by
  obtain ⟨_, exact'⟩ := d.exact
  rcases h with ⟨asked, along, on⟩ | ⟨m, refused⟩
  · rw [admitted] at along
    have whole : Demands (d.walk ()) asked := by simpa using along.demands .done
    refine ⟨(exact'.sound _ whole).1, ?_⟩
    rintro ⟨unit, var⟩ side ⟨same, meets⟩
    obtain ⟨q, mem, rfl, rfl⟩ := (exact'.asks _ whole var side).mpr meets
    obtain ⟨fixed, found, side⟩ := on q mem
    have unit' : q.unit = unit := (exact'.met q (whole.asked mem)).1.trans same.symm
    rw [unit'] at found
    exact ⟨fixed, found, side⟩
  · rw [admitted] at refused
    cases refused

end Door

/-- One table and every admission ever begun against it. -/
structure Pool where
  table : Fixings
  doors : List Door

namespace Pool
variable [FloatText]

/-- Some thread begins an admission, or takes one of its reads and inserts; which
admission it is. -/
inductive Moves : Pool → ℕ → Pool → Prop
  | opens (p : Pool) (d : Door) (whole : d.rest = d.walk ()) :
      Moves p p.doors.length { p with doors := p.doors ++ [d] }
  | fixes (p : Pool) (i : ℕ) (d : Door) (q : Ask) (next : Except Fixed Unit → Steps)
      (at' : p.doors[i]? = some d) (left : d.rest = .ask q next) :
      Moves p i ⟨(p.table.fix q.unit q.var q.side q.pointer).2,
        p.doors.set i { d with rest := next (p.table.fix q.unit q.var q.side q.pointer).1 }⟩

/-- Every run from a table no admission is under way against. -/
inductive Reaches (table : Fixings) : Pool → Prop
  | start : Reaches table ⟨table, []⟩
  | move {p p' : Pool} {i : ℕ} (past : Reaches table p) (move : Moves p i p') : Reaches table p'

def Stands (p : Pool) : Prop := ∀ d ∈ p.doors, d.Kept p.table

variable {p p' : Pool} {i : ℕ} {table : Fixings}

theorem Moves.grows (h : Moves p i p') : p.table.Extends p'.table := by
  cases h with
  | opens d whole => exact .refl _
  | fixes _ d q next at' left => exact Fixings.extends_fix _ _ _ _ _

theorem Moves.adds (h : Moves p i p') (stands : p.Stands) {key : UnitId × ℕ} {fixed : Fixed}
    (now : p'.table key = some fixed) :
    p.table key = some fixed ∨ ∃ d, p.doors[i]? = some d ∧ d.Met key fixed.side := by
  cases h with
  | opens d whole => exact Or.inl now
  | fixes _ d q next at' left =>
    rcases Fixings.fix_new now with old | ⟨rfl, side⟩
    · exact Or.inl old
    · right
      refine ⟨d, at', ?_⟩
      rw [side]
      rcases stands d (List.mem_of_getElem? at') with ⟨asked, along, -⟩ | ⟨m, refused⟩
      · rw [left] at along
        exact Door.met_of_asked (along.asked_of (.here q next))
      · rw [left] at refused
        cases refused

theorem Moves.stands (h : Moves p i p') (stands : p.Stands) : p'.Stands := by
  have grown := h.grows
  cases h with
  | opens d whole =>
    intro x mem
    rcases List.mem_append.mp mem with old | new
    · exact stands x old
    · rw [List.mem_singleton.mp new]
      exact Or.inl ⟨[], whole ▸ .here, by simp⟩
  | fixes _ d q next at' left =>
    intro x mem
    rcases List.mem_or_eq_of_mem_set mem with old | rfl
    · exact (stands x old).mono grown
    · rcases stands d (List.mem_of_getElem? at') with ⟨asked, along, on⟩ | ⟨m, refused⟩
      · rw [left] at along
        rcases Fixings.fix_cases q.unit q.var q.side q.pointer p.table with
          ⟨fixed, ok, found, side, -⟩ | ⟨first, -, -, eq⟩
        · left
          refine ⟨asked ++ [q], ?_, ?_⟩
          · show Along (d.walk ()) _ (next _)
            rw [ok]
            exact along.ask
          · intro q' mem'
            rcases List.mem_append.mp mem' with past | last
            · exact (on q' past).mono grown
            · rw [List.mem_singleton.mp last]
              exact ⟨fixed, found, side⟩
        · right
          obtain ⟨m, failed⟩ := (along.strict d.strict).1 first
          exact ⟨m, by simp only [eq, failed]⟩
      · rw [left] at refused
        cases refused

theorem Reaches.stands (run : Reaches table p) : p.Stands := by
  induction run with
  | start => simp [Stands]
  | move past move ih => exact move.stands ih

theorem Reaches.grows (run : Reaches table p) : table.Extends p.table := by
  induction run with
  | start => exact .refl _
  | move past move ih => exact ih.trans move.grows

end Pool

end

/-! ## Comparable values stay comparable

Whatever the doors of a session let in at one comparable variable can be ordered. A
refusal keeps the fixings its walk had made: a variable is fixed at the first scalar met.
-/

variable {site : Site}

theorem At.fits {id id' : ℕ} {v v' : Value} (reach : At site id v id' v') (h : Fits site id v) :
    Fits site id' v' := by
  induction reach with
  | here => exact h
  | elem shape mem rest ih =>
    apply ih
    cases h with
    | list eq each =>
      rw [shape] at eq
      cases eq
      exact each _ mem
    | free eq => simp [shape] at eq
  | entry shape mem rest ih =>
    apply ih
    cases h with
    | map eq each =>
      rw [shape] at eq
      cases eq
      exact each _ mem
    | record eq => simp [shape] at eq
    | free eq => simp [shape] at eq
  | field shape mem found rest ih =>
    apply ih
    cases h with
    | map eq => simp [shape] at eq
    | record eq named each =>
      rw [shape] at eq
      cases eq
      exact each _ mem _ found
    | free eq => simp [shape] at eq
  | payload shape named rest ih =>
    apply ih
    cases h with
    | known eq named' carried =>
      rw [shape] at eq
      cases eq
      rw [named] at named'
      cases named'
      exact carried
    | other eq unnamed =>
      rw [shape] at eq
      cases eq
      simp [named] at unnamed
    | free eq => simp [shape] at eq

theorem side_of_comparable {v : Value} (h : ∃ head ∈ v.heads, Kind.COMPARABLE.admits head = true) :
    ∃ side, v.side = some side := by
  obtain ⟨head, mem, admits⟩ := h
  cases v with
  | int n => exact ⟨_, rfl⟩
  | float f => exact ⟨_, rfl⟩
  | string s => exact ⟨_, rfl⟩
  | map entries =>
    simp only [Value.heads, List.mem_cons, List.not_mem_nil, or_false] at mem
    rcases mem with rfl | rfl
    · exact absurd admits (by decide)
    · exact absurd admits (by decide)
  | _ =>
    simp only [Value.heads, List.mem_singleton] at mem
    subst mem
    exact absurd admits (by decide)

section
variable [Exports] [FloatText]

/-- A weak comparable variable at a position of a value let in. -/
structure Door.Holds (d : Door) (var : ℕ) (v : Value) : Prop where
  admitted : d.Admitted
  position : ∃ id, At d.site d.site.root d.value id v ∧ (d.site.node id).shape = .free var .COMPARABLE true

theorem Door.Holds.fixed {d : Door} {table : Fixings} {var : ℕ} {v : Value} (h : d.Holds var v)
    (kept : d.Kept table) :
    ∃ fixed, table (d.site.unit, var) = some fixed ∧ v.side = some fixed.side := by
  obtain ⟨fits, stand⟩ := kept.admitted h.admitted
  obtain ⟨id, reach, shape⟩ := h.position
  obtain ⟨side, on⟩ := side_of_comparable ((fits_free shape).mp (reach.fits fits)).1
  obtain ⟨fixed, found, rfl⟩ := stand (d.site.unit, var) side ⟨rfl, id, v, reach, shape, on⟩
  exact ⟨fixed, found, on⟩

/-- In any run, any two values let in at one weak comparable variable of a unit are on one
side and are ordered. An admission, refused or not, changes no fixing that is there, and
adds only those of weak comparable variables at positions of its value, to the side there. -/
theorem comparable_of_run {table : Fixings} {p : Pool} (run : Pool.Reaches table p) :
    (∀ d ∈ p.doors, ∀ d' ∈ p.doors, d.site.unit = d'.site.unit → ∀ var v v', d.Holds var v → d'.Holds var v' →
        (∃ side, v.side = some side ∧ v'.side = some side) ∧ ∀ op, ∃ order, v.compare op v' = .ok order) ∧
      (∀ i p', p.Moves i p' → p.table.Extends p'.table ∧ ∀ key fixed, p'.table key = some fixed →
        p.table key = some fixed ∨ ∃ d, p.doors[i]? = some d ∧ d.Met key fixed.side) ∧
      table.Extends p.table := by
  have stands := run.stands
  refine ⟨fun d mem d' mem' unit var v v' h h' => ?_, fun i p' move => ⟨move.grows, fun key fixed now => ?_⟩,
    run.grows⟩
  · obtain ⟨fixed, found, on⟩ := h.fixed (stands d mem)
    obtain ⟨fixed', found', on'⟩ := h'.fixed (stands d' mem')
    rw [← unit, found] at found'
    cases found'
    exact ⟨⟨_, on, on'⟩, Value.compare_of_side on on'⟩
  · exact move.adds stands now

end

/-! ## One variable -/

namespace OneVariable

def unit : UnitId := ⟨0, 0⟩

def item : Site := ⟨[⟨.free 0 .COMPARABLE true, none⟩], 0, unit⟩

/-- The variable beside an integer. -/
def pair : Site :=
  ⟨[⟨.record ⟨[("a", 1), ("b", 2)], .closed⟩, none⟩, ⟨.free 0 .COMPARABLE true, none⟩, ⟨.int, none⟩], 0, unit⟩

def one : Value := .int ⟨1, by decide⟩

def two : Value := .int ⟨2, by decide⟩

def mixed : Value := .map [("a", one), ("b", .string "x")]

@[reducible] def floats : FloatText := ⟨fun _ => ""⟩

@[reducible] def noModules : Exports := ⟨Unit, Unit, fun _ => (), fun _ _ _ => (none, ())⟩

end OneVariable

open OneVariable in
/-- A refused record leaves its first field's fixing, and text is refused after it. -/
theorem refused_admission_fixes :
    ¬ ∀ [FloatText] (site : Site) (v : Value) (table : Fixings),
      (∃ m, (Walk.against table (site.admits v ())).1 = some (.error m)) →
        (Walk.against table (site.admits v ())).2 = table ∧
          ∀ (next : Site) (v' : Value), next.unit = site.unit →
            (Walk.against (Walk.against table (site.admits v ())).2 (next.admits v' ())).1 =
              (Walk.against table (next.admits v' ())).1 := by
  intro h
  have kept := (@h floats pair mixed .none ⟨_, rfl⟩).1
  have fixing := congrFun kept (unit, 0)
  cases fixing

open OneVariable in
/-- Two integers let in at one variable by two threads, taking turns. -/
theorem comparable_of_two_admissions : ∃ order, one.compare "<" two = .ok order := by
  let _ := floats
  let _ := noModules
  let door (v : Value) : Door := ⟨item, v, none, item.admits v ()⟩
  let ended (v : Value) : Door := ⟨item, v, none, .done (.ok ()) ()⟩
  have opened : Pool.Reaches .none ⟨.none, [door one, door two]⟩ :=
    .move (.move .start (.opens _ (door one) rfl)) (.opens _ (door two) rfl)
  let table := (Fixings.none.fix unit 0 .number (pointerOf [])).2
  have both : Pool.Reaches .none ⟨table, [ended one, ended two]⟩ :=
    .move (.move opened (.fixes _ 0 (door one) ⟨unit, 0, .number, pointerOf []⟩ _ rfl rfl))
      (.fixes _ 1 (door two) ⟨unit, 0, .number, pointerOf []⟩ _ rfl rfl)
  have at' : ∀ v, (ended v).Holds 0 v := fun v => ⟨rfl, 0, .here 0 v, rfl⟩
  have ordered := (comparable_of_run both).1 (ended one) (by simp) (ended two) (by simp) rfl 0 one two
    (at' one) (at' two)
  exact ordered.2 "<"

end Ral.Boundary
