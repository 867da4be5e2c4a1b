import Mathlib.Tactic.Tauto
import Ral.Boundary.Admit

/-! # What admission accepts

Which values fit a node of a site, which positions of a value a walk reaches, and what
it asks there: a walk succeeds where its value fits and every fixing it asks for holds.
-/

namespace Ral.Boundary

open Ral.Typecheck (Kind)

/-! ## Fitting -/

/-- A row's fields are there and fit, and what it does not name its tail admits. -/
inductive Fits (site : Site) : ℕ → Value → Prop
  | unit {id : ℕ} (shape : (site.node id).shape = .unit) : Fits site id .unit
  | bool {id : ℕ} (shape : (site.node id).shape = .bool) (b : Bool) : Fits site id (.bool b)
  | int {id : ℕ} (shape : (site.node id).shape = .int) (n : Ral.Data.I64) : Fits site id (.int n)
  | float {id : ℕ} (shape : (site.node id).shape = .float) (f : Ral.Data.Finite) : Fits site id (.float f)
  | string {id : ℕ} (shape : (site.node id).shape = .string) (s : String) : Fits site id (.string s)
  | bytes {id : ℕ} (shape : (site.node id).shape = .bytes) (bs : List UInt8) : Fits site id (.bytes bs)
  | handle {id payload : ℕ} {grade : GradeShape} (shape : (site.node id).shape = .handle grade payload) :
      Fits site id .handle
  | thunk {id body : ℕ} (shape : (site.node id).shape = .thunk body) (lambda : Bool) :
      Fits site id (.thunk lambda)
  | native {id body : ℕ} (shape : (site.node id).shape = .thunk body) : Fits site id .native
  | list {id elem : ℕ} {items : List Value} (shape : (site.node id).shape = .list elem)
      (each : ∀ v ∈ items, Fits site elem v) : Fits site id (.list items)
  | map {id elem : ℕ} {entries : List (String × Value)} (shape : (site.node id).shape = .map elem)
      (each : ∀ e ∈ entries, Fits site elem e.2) : Fits site id (.map entries)
  | record {id : ℕ} {row : Fields} {entries : List (String × Value)}
      (shape : (site.node id).shape = .record row)
      (named : ∀ l ∈ row.labels, ∃ v, Value.entry l.1 entries = some v)
      (each : ∀ l ∈ row.labels, ∀ v, Value.entry l.1 entries = some v → Fits site l.2 v)
      (further : ∀ e ∈ entries, e.1 ∉ row.labels.map Prod.fst →
        ∃ var deep weak, row.tail = .open var deep weak ∧ (deep = true → e.2.isData = true)) :
      Fits site id (.map entries)
  | known {id at' : ℕ} {row : Fields} {label name : String} {payload : Option Value}
      (shape : (site.node id).shape = .variant row)
      (named : row.labels.find? (fun l => l.1 = label) = some (name, at'))
      (carried : Fits site at' (payload.getD .unit)) : Fits site id (.variant label payload)
  | other {id var : ℕ} {row : Fields} {deep weak : Bool} {label : String} {payload : Option Value}
      (shape : (site.node id).shape = .variant row)
      (unnamed : row.labels.find? (fun l => l.1 = label) = none) (tail : row.tail = .open var deep weak)
      (data : deep = true → (payload.getD .unit).isData = true) : Fits site id (.variant label payload)
  | free {id var : ℕ} {kind : Kind} {weak : Bool} {v : Value} (shape : (site.node id).shape = .free var kind weak)
      (head : ∃ h ∈ v.heads, kind.admits h = true) (data : kind.deep = true → v.isData = true) :
      Fits site id v

/-- A walk from `id` and `v` reaches the position `id'` with `v'`. -/
inductive At (site : Site) : ℕ → Value → ℕ → Value → Prop
  | here (id : ℕ) (v : Value) : At site id v id v
  | elem {id elem id' : ℕ} {items : List Value} {v v' : Value} (shape : (site.node id).shape = .list elem)
      (mem : v ∈ items) (rest : At site elem v id' v') : At site id (.list items) id' v'
  | entry {id elem id' : ℕ} {entries : List (String × Value)} {e : String × Value} {v' : Value}
      (shape : (site.node id).shape = .map elem) (mem : e ∈ entries) (rest : At site elem e.2 id' v') :
      At site id (.map entries) id' v'
  | field {id id' : ℕ} {row : Fields} {entries : List (String × Value)} {l : String × ℕ} {v v' : Value}
      (shape : (site.node id).shape = .record row) (mem : l ∈ row.labels)
      (found : Value.entry l.1 entries = some v) (rest : At site l.2 v id' v') :
      At site id (.map entries) id' v'
  | payload {id at' id' : ℕ} {row : Fields} {label name : String} {payload : Option Value} {v' : Value}
      (shape : (site.node id).shape = .variant row)
      (named : row.labels.find? (fun l => l.1 = label) = some (name, at'))
      (rest : At site at' (payload.getD .unit) id' v') : At site id (.variant label payload) id' v'

def Meets (site : Site) (id : ℕ) (v : Value) (var : ℕ) (side : Side) : Prop :=
  ∃ id' v', At site id v id' v' ∧ (site.node id').shape = .free var .COMPARABLE true ∧ v'.side = some side

/-! ## The asks of a walk -/

abbrev Steps : Type := Calls Ask (Except Fixed Unit) Mismatch Unit Unit

/-- The asks of a walk that succeeds. -/
inductive Demands : Steps → List Ask → Prop
  | done : Demands (.done (.ok ()) ()) []
  | ask {q : Ask} {next : Except Fixed Unit → Steps} {qs : List Ask} (rest : Demands (next (.ok ())) qs) :
      Demands (.ask q next) (q :: qs)

/-- A walk fails where a fixing is refused. -/
def Strict : Steps → Prop
  | .done _ _ => True
  | .stuck => True
  | .ask _ next => (∀ first, ∃ m, next (.error first) = .done (.error m) ()) ∧ Strict (next (.ok ()))

/-- A walk does not panic. -/
def Calm : Steps → Prop
  | .done _ _ => True
  | .stuck => False
  | .ask _ next => ∀ a, Calm (next a)

theorem demands_bind {c : Steps} {f : Unit → Unit → Steps} {qs : List Ask} :
    Demands (c.bind f) qs ↔ ∃ first second, qs = first ++ second ∧ Demands c first ∧ Demands (f () ()) second := by
  induction c generalizing qs with
  | done r s =>
    cases r with
    | ok a =>
      constructor
      · intro h
        exact ⟨[], qs, rfl, .done, h⟩
      · rintro ⟨first, second, rfl, hc, hf⟩
        cases hc
        exact hf
    | error e =>
      constructor
      · intro h
        cases h
      · rintro ⟨first, second, -, hc, -⟩
        cases hc
  | stuck =>
    constructor
    · intro h
      cases h
    · rintro ⟨first, second, -, hc, -⟩
      cases hc
  | ask q next ih =>
    constructor
    · intro h
      cases h with
      | ask rest =>
        obtain ⟨first, second, rfl, hc, hf⟩ := (ih (.ok ())).mp rest
        exact ⟨q :: first, second, rfl, .ask hc, hf⟩
    · rintro ⟨first, second, rfl, hc, hf⟩
      cases hc with
      | ask rest => exact .ask ((ih (.ok ())).mpr ⟨_, _, rfl, rest, hf⟩)

theorem asked_bind {c : Steps} {f : Unit → Unit → Steps} {q : Ask}
    (h : (c.bind f).Asked (fun _ _ => True) q) :
    c.Asked (fun _ _ => True) q ∨ (f () ()).Asked (fun _ _ => True) q := by
  induction c with
  | done r s =>
    cases r with
    | ok a => exact Or.inr h
    | error e => cases h
  | stuck => cases h
  | ask q' next ih =>
    cases h with
    | here => exact Or.inl (.here _ _)
    | later allowed rest =>
      rcases ih _ rest with found | found
      · exact Or.inl (.later allowed found)
      · exact Or.inr found

theorem Demands.asked {c : Steps} {qs : List Ask} (h : Demands c qs) {q : Ask} (mem : q ∈ qs) :
    c.Asked (fun _ _ => True) q := by
  induction h with
  | done => cases mem
  | ask rest ih =>
    rcases List.mem_cons.mp mem with rfl | mem
    · exact .here _ _
    · exact .later trivial (ih mem)

theorem Strict.bind {c : Steps} {f : Unit → Unit → Steps} (hc : Strict c) (hf : Strict (f () ())) :
    Strict (c.bind f) := by
  induction c with
  | done r s =>
    cases r with
    | ok a => exact hf
    | error e => trivial
  | stuck => trivial
  | ask q next ih =>
    refine ⟨fun first => ?_, ih _ hc.2⟩
    obtain ⟨m, eq⟩ := hc.1 first
    exact ⟨m, by simp only [eq, Calls.bind]⟩

theorem Calm.bind {c : Steps} {f : Unit → Unit → Steps} (hc : Calm c) (hf : Calm (f () ())) :
    Calm (c.bind f) := by
  induction c with
  | done r s =>
    cases r with
    | ok a => exact hf
    | error e => trivial
  | stuck => exact hc
  | ask q next ih => exact fun a => ih a (hc a)

/-! ## Exact walks -/

/-- The walk succeeds where `fits` and what it asks holds, it asks only of the unit's
variables it meets and of all of them if it succeeds, and it ends where `ends`. -/
structure Exact (unit : UnitId) (w : Walk) (ends fits : Prop) (meets : ℕ → Side → Prop) : Prop where
  strict : Strict (w ())
  calm : ends → Calm (w ())
  sound : ∀ qs, Demands (w ()) qs → fits
  met : ∀ q, (w ()).Asked (fun _ _ => True) q → q.unit = unit ∧ meets q.var q.side
  asks : ∀ qs, Demands (w ()) qs → ∀ var side, (∃ q ∈ qs, q.var = var ∧ q.side = side) ↔ meets var side
  complete : fits → ∃ qs, Demands (w ()) qs

namespace Exact

variable {unit : UnitId} {w x y : Walk} {ends ends' fits fits' : Prop} {meets meets' : ℕ → Side → Prop}

theorem congr (h : Exact unit w ends fits meets) (he : ends' → ends) (hf : fits ↔ fits')
    (hm : ∀ var side, meets var side ↔ meets' var side) : Exact unit w ends' fits' meets' where
  strict := h.strict
  calm e := h.calm (he e)
  sound qs d := hf.mp (h.sound qs d)
  met q asked := ⟨(h.met q asked).1, (hm q.var q.side).mp (h.met q asked).2⟩
  asks qs d var side := (h.asks qs d var side).trans (hm var side)
  complete f := h.complete (hf.mpr f)

theorem pure (h : fits) (none : ∀ var side, ¬ meets var side) : Exact unit (Pure.pure ()) ends fits meets where
  strict := trivial
  calm _ := trivial
  sound _ _ := h
  met q asked := by cases asked
  asks qs d var side := by
    cases d
    simp [none]
  complete _ := ⟨[], .done⟩

theorem fail {e : Mismatch} (h : ¬ fits) : Exact unit (Asking.fail e) ends fits meets where
  strict := trivial
  calm _ := trivial
  sound qs d := by cases d
  met q asked := by cases asked
  asks qs d := by cases d
  complete f := absurd f h

theorem stuck (h : ¬ fits) (he : ¬ ends) : Exact unit Asking.stuck ends fits meets where
  strict := trivial
  calm e := absurd e he
  sound qs d := by cases d
  met q asked := by cases asked
  asks qs d := by cases d
  complete f := absurd f h

theorem ask {var : ℕ} {side : Side} {pointer : String} {m : Fixed → Mismatch} :
    Exact unit (Asking.ask (fun _ => ⟨unit, var, side, pointer⟩) fun answer s => (answer.mapError m, s)) ends
      True (fun var' side' => var = var' ∧ side = side') where
  strict := ⟨fun first => ⟨m first, rfl⟩, trivial⟩
  calm _ a := trivial
  sound _ _ := trivial
  met q asked := by
    cases asked with
    | here => exact ⟨rfl, rfl, rfl⟩
    | later _ rest => cases rest
  asks qs d var' side' := by
    cases d with
    | ask rest =>
      cases rest
      simp
  complete _ := ⟨_, .ask .done⟩

theorem bind (hx : Exact unit x ends fits meets) (hy : Exact unit y ends' fits' meets') :
    Exact unit (x >>= fun _ => y) (ends ∧ ends') (fits ∧ fits') (fun var side => meets var side ∨ meets' var side)
    where
  strict := hx.strict.bind hy.strict
  calm e := (hx.calm e.1).bind (hy.calm e.2)
  sound qs d := by
    obtain ⟨first, second, -, dx, dy⟩ := demands_bind.mp d
    exact ⟨hx.sound first dx, hy.sound second dy⟩
  met q asked := by
    rcases asked_bind asked with mem | mem
    · exact ⟨(hx.met q mem).1, Or.inl (hx.met q mem).2⟩
    · exact ⟨(hy.met q mem).1, Or.inr (hy.met q mem).2⟩
  asks qs d var side := by
    obtain ⟨first, second, rfl, dx, dy⟩ := demands_bind.mp d
    rw [← hx.asks first dx, ← hy.asks second dy]
    simp only [List.mem_append, or_and_right, exists_or]
  complete f := by
    obtain ⟨first, dx⟩ := hx.complete f.1
    obtain ⟨second, dy⟩ := hy.complete f.2
    exact ⟨first ++ second, demands_bind.mpr ⟨first, second, rfl, dx, dy⟩⟩

end Exact

/-! ## The parts of the walk -/

section
variable [FloatText] {unit : UnitId}

theorem exact_data (at' : Option Ral.Typecheck.Span) (v : Value) (path : List Step) :
    Exact unit (Walk.data at' v path) True (v.isData = true) fun _ _ => False := by
  induction v using Value.induct generalizing path with
  | leaf v list map variant =>
    cases v with
    | list items => exact absurd rfl (list items)
    | map entries => exact absurd rfl (map entries)
    | variant label payload =>
      cases payload with
      | none => exact .pure rfl (by simp)
      | some payload => exact absurd rfl (variant label payload)
    | thunk lambda => exact .fail (by simp [Value.isData])
    | native => exact .fail (by simp [Value.isData])
    | handle => exact .fail (by simp [Value.isData])
    | unit => exact .pure rfl (by simp)
    | bool b => exact .pure rfl (by simp)
    | int n => exact .pure rfl (by simp)
    | float f => exact .pure rfl (by simp)
    | string s => exact .pure rfl (by simp)
    | bytes bs => exact .pure rfl (by simp)
  | list items ih =>
    show Exact unit (Walk.dataItems at' items path 0) True (Value.allData items = true) _
    generalize 0 = index
    induction items generalizing index with
    | nil => exact .pure rfl (by simp)
    | cons v vs rest =>
      refine ((ih v (by simp) _).bind (rest (fun x mem => ih x (by simp [mem])) (index + 1))).congr ?_ ?_ ?_
      · simp
      · simp [Value.allData]
      · simp
  | map entries ih =>
    show Exact unit (Walk.dataEntries at' entries path) True (Value.entriesData entries = true) _
    induction entries with
    | nil => exact .pure rfl (by simp)
    | cons e es rest =>
      refine ((ih e (by simp) _).bind (rest fun x mem => ih x (by simp [mem]))).congr ?_ ?_ ?_
      · simp
      · simp [Value.entriesData]
      · simp
  | variant label payload ih => exact ih _

theorem exact_dataPayload (at' : Option Ral.Typecheck.Span) (payload : Option Value) (path : List Step) :
    Exact unit (Walk.dataPayload at' payload path) True ((payload.getD .unit).isData = true) fun _ _ => False := by
  cases payload with
  | none => exact .pure rfl (by simp)
  | some payload => exact exact_data at' payload _

variable {site : Site}

omit [FloatText] in
theorem exact_fixing (var : ℕ) (kind : Kind) (weak : Bool) (v : Value) (path : List Step)
    (at' : Option Ral.Typecheck.Span) :
    Exact site.unit (match v.side with
      | some side =>
        if weak = true ∧ kind = .COMPARABLE then
          Asking.ask (fun _ => ⟨site.unit, var, side, pointerOf path⟩) fun answer s =>
            (answer.mapError fun first => ⟨pointerOf path, at', .shares first.pointer first.side side⟩, s)
        else pure ()
      | none => pure () : Walk) True True fun var' side =>
        var = var' ∧ kind = .COMPARABLE ∧ weak = true ∧ v.side = some side := by
  cases v.side with
  | none => exact .pure trivial (by simp)
  | some side =>
    dsimp only
    split
    next both => exact Exact.ask.congr id Iff.rfl (by simp [both.1, both.2])
    next apart => exact .pure trivial (by grind)

theorem exact_free (var : ℕ) (kind : Kind) (weak : Bool) (v : Value) (path : List Step)
    (at' : Option Ral.Typecheck.Span) :
    Exact site.unit (Walk.free site var kind weak v path at') True
      ((∃ h ∈ v.heads, kind.admits h = true) ∧ (kind.deep = true → v.isData = true)) fun var' side =>
        var = var' ∧ kind = .COMPARABLE ∧ weak = true ∧ v.side = some side := by
  unfold Walk.free
  split
  next none =>
    apply Exact.fail
    rintro ⟨⟨h, mem, admits⟩, -⟩
    simp only [List.any_eq_false] at none
    exact none h mem admits
  next some =>
    have head : ∃ h ∈ v.heads, kind.admits h = true := by simpa using some
    by_cases deep : kind.deep = true
    · rw [if_pos deep]
      exact ((exact_data at' v path).bind (exact_fixing var kind weak v path at')).congr (by simp)
        (by simp [head, deep]) (by simp)
    · rw [if_neg deep]
      exact (exact_fixing var kind weak v path at').congr id (by simp [head, deep]) (by simp)

end

end Ral.Boundary
