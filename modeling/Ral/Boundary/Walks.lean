import Ral.Boundary.Exact

/-! # A whole walk

The walk of a value at a node of a sorted site, one position at a time.
-/

namespace Ral.Boundary

open Ral.Typecheck (Kind Span)

/-! ## Sorts of nodes -/

/-- Not a computation. -/
def Shape.isValue : Shape → Bool
  | .ret _ _ => false
  | .func _ _ => false
  | .freeComp _ => false
  | _ => true

/-- The positions below that a walk may step to. -/
def Shape.parts : Shape → List ℕ
  | .list elem => [elem]
  | .map elem => [elem]
  | .record row => row.labels.map Prod.snd
  | .variant row => row.labels.map Prod.snd
  | _ => []

def Shape.opens : Shape → Value → Bool
  | .list _, .list _ => true
  | .map _, .map _ => true
  | .record _, .map _ => true
  | .variant _, .variant _ _ => true
  | _, _ => false

namespace Site

def Valued (site : Site) (id : ℕ) : Prop := (site.node id).shape.isValue = true

def Sorted (site : Site) : Prop := ∀ id, ∀ part ∈ (site.node id).shape.parts, site.Valued part

end Site

variable {site : Site}

/-! ## Leaves -/

/-- The values of a shape that has no parts a walk steps to. -/
def Shape.takes : Shape → Value → Bool
  | .unit, .unit => true
  | .bool, .bool _ => true
  | .int, .int _ => true
  | .float, .float _ => true
  | .string, .string _ => true
  | .bytes, .bytes _ => true
  | .handle _ _, .handle => true
  | .thunk _, .thunk _ => true
  | .thunk _, .native => true
  | _, _ => false

theorem at_leaf {id id' : ℕ} {v v' : Value} (apart : (site.node id).shape.opens v = false)
    (h : At site id v id' v') : id' = id ∧ v' = v := by
  cases h with
  | here => exact ⟨rfl, rfl⟩
  | elem shape => simp [shape, Shape.opens] at apart
  | entry shape => simp [shape, Shape.opens] at apart
  | field shape => simp [shape, Shape.opens] at apart
  | payload shape => simp [shape, Shape.opens] at apart

theorem meets_leaf {id : ℕ} {v : Value} (apart : (site.node id).shape.opens v = false) (var : ℕ) (side : Side) :
    Meets site id v var side ↔ (site.node id).shape = .free var .COMPARABLE true ∧ v.side = some side := by
  constructor
  · rintro ⟨id', v', reach, h⟩
    obtain ⟨rfl, rfl⟩ := at_leaf apart reach
    exact h
  · exact fun h => ⟨id, v, .here id v, h⟩

theorem fits_free {id var : ℕ} {kind : Kind} {weak : Bool} {v : Value}
    (shape : (site.node id).shape = .free var kind weak) :
    Fits site id v ↔ (∃ h ∈ v.heads, kind.admits h = true) ∧ (kind.deep = true → v.isData = true) := by
  constructor
  · intro h
    cases h with
    | free eq head data =>
      rw [shape] at eq
      cases eq
      exact ⟨head, data⟩
    | _ => simp_all
  · exact fun h => .free shape h.1 h.2

theorem fits_leaf {id : ℕ} {v : Value} (apart : (site.node id).shape.opens v = false)
    (bound : ∀ var kind weak, (site.node id).shape ≠ .free var kind weak) :
    Fits site id v ↔ (site.node id).shape.takes v = true := by
  constructor
  · intro h
    cases h with
    | free shape => exact absurd shape (bound _ _ _)
    | _ => simp_all [Shape.opens, Shape.takes]
  · intro h
    generalize eq : (site.node id).shape = shape at h
    unfold Shape.takes at h
    split at h
    · exact .unit eq
    · exact .bool eq _
    · exact .int eq _
    · exact .float eq _
    · exact .string eq _
    · exact .bytes eq _
    · exact .handle eq
    · exact .thunk eq _
    · exact .native eq
    · cases h

/-! ## Below a position -/

theorem meets_list {id elem : ℕ} {items : List Value} (shape : (site.node id).shape = .list elem) (var : ℕ)
    (side : Side) : Meets site id (.list items) var side ↔ ∃ v ∈ items, Meets site elem v var side := by
  constructor
  · rintro ⟨id', v', reach, end', on⟩
    cases reach with
    | here => simp [Value.side] at on
    | elem eq mem rest =>
      rw [shape] at eq
      cases eq
      exact ⟨_, mem, id', v', rest, end', on⟩
  · rintro ⟨v, mem, id', v', reach, h⟩
    exact ⟨id', v', .elem shape mem reach, h⟩

theorem meets_map {id elem : ℕ} {entries : List (String × Value)} (shape : (site.node id).shape = .map elem)
    (var : ℕ) (side : Side) :
    Meets site id (.map entries) var side ↔ ∃ e ∈ entries, Meets site elem e.2 var side := by
  constructor
  · rintro ⟨id', v', reach, end', on⟩
    cases reach with
    | here => simp [Value.side] at on
    | entry eq mem rest =>
      rw [shape] at eq
      cases eq
      exact ⟨_, mem, id', v', rest, end', on⟩
    | field eq => simp [shape] at eq
  · rintro ⟨e, mem, id', v', reach, h⟩
    exact ⟨id', v', .entry shape mem reach, h⟩

theorem meets_record {id : ℕ} {row : Fields} {entries : List (String × Value)}
    (shape : (site.node id).shape = .record row) (var : ℕ) (side : Side) :
    Meets site id (.map entries) var side ↔
      ∃ l ∈ row.labels, ∃ v, Value.entry l.1 entries = some v ∧ Meets site l.2 v var side := by
  constructor
  · rintro ⟨id', v', reach, end', on⟩
    cases reach with
    | here => simp [Value.side] at on
    | entry eq => simp [shape] at eq
    | field eq mem found rest =>
      rw [shape] at eq
      cases eq
      exact ⟨_, mem, _, found, id', v', rest, end', on⟩
  · rintro ⟨l, mem, v, found, id', v', reach, h⟩
    exact ⟨id', v', .field shape mem found reach, h⟩

theorem meets_variant {id : ℕ} {row : Fields} {label : String} {payload : Option Value}
    (shape : (site.node id).shape = .variant row) (var : ℕ) (side : Side) :
    Meets site id (.variant label payload) var side ↔
      ∃ l, row.labels.find? (fun l => l.1 = label) = some l ∧ Meets site l.2 (payload.getD .unit) var side := by
  constructor
  · rintro ⟨id', v', reach, end', on⟩
    cases reach with
    | here => simp [Value.side] at on
    | payload eq named rest =>
      rw [shape] at eq
      cases eq
      exact ⟨_, named, id', v', rest, end', on⟩
  · rintro ⟨l, named, id', v', reach, h⟩
    exact ⟨id', v', .payload shape named reach, h⟩

section
variable [FloatText]

theorem exact_leaf (v : Value) (id : ℕ) (path : List Step) (inherited : Option Span)
    (apart : (site.node id).shape.opens v = false) :
    Exact site.unit (Walk.leaf site v id path inherited) (site.Valued id) (Fits site id v) (Meets site id v) := by
  have meets := meets_leaf apart
  by_cases isFree : ∃ var kind weak, (site.node id).shape = .free var kind weak
  · obtain ⟨var, kind, weak, shape⟩ := isFree
    have walk : Walk.leaf site v id path inherited =
        Walk.free site var kind weak v path ((site.node id).witness.or inherited) := by
      simp only [Walk.leaf, shape]
    rw [walk]
    refine (exact_free var kind weak v path _).congr (fun _ => trivial) (fits_free shape).symm ?_
    intro var' side
    rw [meets, shape]
    grind
  · have none : ∀ var side, ¬ Meets site id v var side := by
      intro var side h
      exact isFree ⟨var, _, _, ((meets var side).mp h).1⟩
    have fits := fits_leaf apart fun var kind weak shape => isFree ⟨var, kind, weak, shape⟩
    unfold Walk.leaf Site.Valued
    dsimp only
    generalize (site.node id).shape = shape at isFree fits
    split
    next => exact .pure (fits.mpr rfl) none
    next => exact .pure (fits.mpr rfl) none
    next => exact .pure (fits.mpr rfl) none
    next => exact .pure (fits.mpr rfl) none
    next => exact .pure (fits.mpr rfl) none
    next => exact .pure (fits.mpr rfl) none
    next => exact .pure (fits.mpr rfl) none
    next => exact .pure (fits.mpr rfl) none
    next => exact .pure (fits.mpr rfl) none
    next => exact absurd ⟨_, _, _, rfl⟩ isFree
    next =>
      have refused : ¬ Fits site id v := by
        rw [fits]
        unfold Shape.takes
        split <;> simp_all
      split
      next => exact .fail refused
      next none => exact .stuck refused (by cases shape <;> simp_all [expected, Shape.isValue])

/-! ## Rows -/

theorem runFields_find (entries : List (String × Value)) (name : String) :
    (Walk.runFields site entries).find? (fun f => f.1 = name) =
      (entries.find? fun e => e.1 = name).map fun e => (e.1, Walk.run site e.2) := by
  induction entries with
  | nil => rfl
  | cons e es ih =>
    rw [Walk.runFields, List.find?_cons, List.find?_cons, ih]
    split <;> simp_all

def Each (site : Site) (entries : List (String × Value)) : Prop :=
  ∀ e ∈ entries, ∀ id path inherited, Exact site.unit (Walk.run site e.2 id path inherited)
    (site.Sorted ∧ site.Valued id) (Fits site id e.2) (Meets site id e.2)

theorem exact_labels {entries : List (String × Value)} (each : Each site entries) (path : List Step)
    (at' : Option Span) (ls : List (String × ℕ)) :
    Exact site.unit (Walk.labels (Walk.runFields site entries) path at' ls)
      (site.Sorted ∧ ∀ l ∈ ls, site.Valued l.2)
      (∀ l ∈ ls, ∃ v, Value.entry l.1 entries = some v ∧ Fits site l.2 v) fun var side =>
        ∃ l ∈ ls, ∃ v, Value.entry l.1 entries = some v ∧ Meets site l.2 v var side := by
  induction ls with
  | nil => exact .pure (by simp) (by simp)
  | cons l rest ih =>
    rw [Walk.labels, runFields_find]
    cases found : entries.find? fun e => e.1 = l.1 with
    | none =>
      apply Exact.fail
      intro h
      obtain ⟨v, entry, -⟩ := h l (by simp)
      simp [Value.entry, found] at entry
    | some e =>
      have entry : Value.entry l.1 entries = some e.2 := by simp [Value.entry, found]
      have one := each e (List.mem_of_find?_eq_some found) l.2 (path ++ [.key l.1]) at'
      refine (one.bind ih).congr ?_ ?_ ?_
      · exact fun h => ⟨⟨h.1, h.2 l (by simp)⟩, h.1, fun x mem => h.2 x (by simp [mem])⟩
      · simp [entry]
      · simp [entry]

theorem exact_extras (row : Fields) (path : List Step) (at' : Option Span) (es : List (String × Value)) :
    Exact site.unit (Walk.extras row path at' es) True
      (∀ e ∈ es, e.1 ∉ row.labels.map Prod.fst →
        ∃ var deep weak, row.tail = .open var deep weak ∧ (deep = true → e.2.isData = true)) fun _ _ => False := by
  induction es with
  | nil => exact .pure (by simp) (by simp)
  | cons e es ih =>
    have listed : (row.labels.any fun l => decide (l.1 = e.1)) = true ↔ e.1 ∈ row.labels.map Prod.fst := by
      simp only [List.any_eq_true, List.mem_map, decide_eq_true_eq]
    rw [List.forall_mem_cons]
    unfold Walk.extras
    split
    next named =>
      refine ih.congr id ?_ (fun _ _ => Iff.rfl)
      exact ⟨fun h => ⟨fun unnamed => absurd (listed.mp named) unnamed, h⟩, And.right⟩
    next unnamed =>
      have unknown : e.1 ∉ row.labels.map Prod.fst := fun h => unnamed (listed.mpr h)
      split
      next tail =>
        apply Exact.fail
        intro h
        obtain ⟨var, deep, weak, eq, -⟩ := h.1 unknown
        rw [tail] at eq
        cases eq
      next tail =>
        refine ((exact_data at' e.2 _).bind ih).congr (fun _ => ⟨trivial, trivial⟩) (and_congr_left' ?_) (by simp)
        exact ⟨fun data _ => ⟨_, _, _, tail, fun _ => data⟩, fun h => by
          obtain ⟨var, deep, weak, eq, data⟩ := h unknown
          rw [tail] at eq
          cases eq
          exact data rfl⟩
      next tail =>
        refine ih.congr id ?_ (fun _ _ => Iff.rfl)
        exact ⟨fun h => ⟨fun _ => ⟨_, _, _, tail, by simp⟩, h⟩, And.right⟩

/-! ## The walk -/

theorem exact_items {elem : ℕ} (path : List Step) (at' : Option Span) {items : List Value} (index : ℕ)
    (each : ∀ v ∈ items, ∀ id path inherited, Exact site.unit (Walk.run site v id path inherited)
      (site.Sorted ∧ site.Valued id) (Fits site id v) (Meets site id v)) :
    Exact site.unit (Walk.runItems site items elem path at' index) (site.Sorted ∧ site.Valued elem)
      (∀ v ∈ items, Fits site elem v) fun var side => ∃ v ∈ items, Meets site elem v var side := by
  induction items generalizing index with
  | nil => exact .pure (by simp) (by simp)
  | cons v vs ih =>
    have rest := ih (index + 1) fun x mem => each x (by simp [mem])
    exact ((each v (by simp) elem _ at').bind rest).congr (fun h => ⟨h, h⟩) List.forall_mem_cons.symm (by simp)

theorem exact_entries {elem : ℕ} (path : List Step) (at' : Option Span) {entries : List (String × Value)}
    (each : Each site entries) :
    Exact site.unit (Walk.runEntries site entries elem path at') (site.Sorted ∧ site.Valued elem)
      (∀ e ∈ entries, Fits site elem e.2) fun var side => ∃ e ∈ entries, Meets site elem e.2 var side := by
  induction entries with
  | nil => exact .pure (by simp) (by simp)
  | cons e es ih =>
    have rest := ih fun x mem => each x (by simp [mem])
    exact ((each e (by simp) elem _ at').bind rest).congr (fun h => ⟨h, h⟩) (by simp) (by simp)

theorem exact_record {id : ℕ} {row : Fields} (shape : (site.node id).shape = .record row) (path : List Step)
    (at' : Option Span) {entries : List (String × Value)} (each : Each site entries) :
    Exact site.unit
      (do Walk.labels (Walk.runFields site entries) path at' row.labels; Walk.extras row path at' entries)
      (site.Sorted ∧ site.Valued id) (Fits site id (.map entries)) (Meets site id (.map entries)) := by
  refine ((exact_labels each path at' row.labels).bind (exact_extras row path at' entries)).congr ?_ ?_ ?_
  · intro h
    refine ⟨⟨h.1, fun l mem => h.1 id l.2 ?_⟩, trivial⟩
    rw [shape]
    exact List.mem_map_of_mem mem
  · constructor
    · rintro ⟨named, further⟩
      refine .record shape (fun l mem => ?_) (fun l mem v found => ?_) further
      · obtain ⟨v, found, -⟩ := named l mem
        exact ⟨v, found⟩
      · obtain ⟨v', found', fits⟩ := named l mem
        rw [found'] at found
        cases found
        exact fits
    · intro h
      cases h with
      | record eq named each further =>
        rw [shape] at eq
        cases eq
        refine ⟨fun l mem => ?_, further⟩
        obtain ⟨v, found⟩ := named l mem
        exact ⟨v, found, each l mem v found⟩
      | map eq => simp [shape] at eq
      | free eq => simp [shape] at eq
  · intro var side
    rw [meets_record shape, or_false]

theorem exact_variant {id : ℕ} {row : Fields} (shape : (site.node id).shape = .variant row) {label : String}
    {payload : Option Value} (path : List Step) (inherited : Option Span)
    (carried : ∀ id path inherited, Exact site.unit (Walk.runPayload site payload id path inherited)
      (site.Sorted ∧ site.Valued id) (Fits site id (payload.getD .unit)) (Meets site id (payload.getD .unit))) :
    Exact site.unit (Walk.run site (.variant label payload) id path inherited) (site.Sorted ∧ site.Valued id)
      (Fits site id (.variant label payload)) (Meets site id (.variant label payload)) := by
  have meets : ∀ var side, Meets site id (.variant label payload) var side ↔ _ := meets_variant shape
  unfold Walk.run
  dsimp only
  rw [shape]
  dsimp only
  cases named : row.labels.find? fun l => l.1 = label with
  | some l =>
    refine (carried l.2 _ _).congr ?_ ?_ ?_
    · intro h
      refine ⟨h.1, h.1 id l.2 ?_⟩
      rw [shape]
      exact List.mem_map_of_mem (List.mem_of_find?_eq_some named)
    · constructor
      · exact .known shape named
      · intro h
        cases h with
        | known eq named' fits =>
          rw [shape] at eq
          cases eq
          rw [named] at named'
          cases named'
          exact fits
        | other eq unnamed =>
          rw [shape] at eq
          cases eq
          simp [named] at unnamed
        | free eq => simp [shape] at eq
    · intro var side
      rw [meets, named]
      simp
  | none =>
    have none : ∀ var side, ¬ Meets site id (.variant label payload) var side := by
      intro var side
      rw [meets, named]
      simp
    have data : ∀ {var deep weak}, row.tail = .open var deep weak → (Fits site id (.variant label payload) ↔
        (deep = true → (payload.getD .unit).isData = true)) := by
      intro var deep weak tail
      constructor
      · intro h
        cases h with
        | known eq named' =>
          rw [shape] at eq
          cases eq
          simp [named] at named'
        | other eq unnamed tail' data =>
          rw [shape] at eq
          cases eq
          rw [tail] at tail'
          cases tail'
          exact data
        | free eq => simp [shape] at eq
      · exact .other shape named tail
    dsimp only
    split
    next tail => exact .pure ((data tail).mpr (by simp)) none
    next tail =>
      refine (exact_dataPayload _ payload path).congr (fun _ => trivial) ?_ ?_
      · simp [data tail]
      · simp [none]
    next tail =>
      apply Exact.fail
      intro h
      cases h with
      | known eq named' =>
        rw [shape] at eq
        cases eq
        simp [named] at named'
      | other eq unnamed tail' =>
        rw [shape] at eq
        cases eq
        rw [tail] at tail'
        cases tail'
      | free eq => simp [shape] at eq

theorem run_leaf (v : Value) (id : ℕ) (path : List Step) (inherited : Option Span)
    (apart : (site.node id).shape.opens v = false) :
    Walk.run site v id path inherited = Walk.leaf site v id path inherited := by
  cases v with
  | list items =>
    unfold Walk.run
    split
    next shape => simp [shape, Shape.opens] at apart
    next => rfl
  | map entries =>
    unfold Walk.run
    dsimp only
    split
    next shape => simp [shape, Shape.opens] at apart
    next shape => simp [shape, Shape.opens] at apart
    next => rfl
  | variant label payload =>
    unfold Walk.run
    dsimp only
    split
    next shape => simp [shape, Shape.opens] at apart
    next => rfl
  | _ => rfl

/-- A walk succeeds where the value fits the node, meeting what its positions are. -/
theorem exact_run (v : Value) (id : ℕ) (path : List Step) (inherited : Option Span) :
    Exact site.unit (Walk.run site v id path inherited) (site.Sorted ∧ site.Valued id) (Fits site id v)
      (Meets site id v) := by
  induction v using Value.induct generalizing id path inherited with
  | leaf v list map variant =>
    by_cases opens : (site.node id).shape.opens v = true
    · cases v with
      | list items => exact absurd rfl (list items)
      | map entries => exact absurd rfl (map entries)
      | variant label payload =>
        cases payload with
        | some payload => exact absurd rfl (variant label payload)
        | none =>
          cases shape : (site.node id).shape with
          | variant row =>
            refine exact_variant shape path inherited fun id path inherited => ?_
            exact (exact_leaf .unit id path inherited (by cases (site.node id).shape <;> rfl)).congr And.right
              Iff.rfl fun _ _ => Iff.rfl
          | _ => simp [shape, Shape.opens] at opens
      | _ => cases shape : (site.node id).shape <;> simp [shape, Shape.opens] at opens
    · have apart : (site.node id).shape.opens v = false := by simpa using opens
      rw [run_leaf v id path inherited apart]
      exact (exact_leaf v id path inherited apart).congr And.right Iff.rfl fun _ _ => Iff.rfl
  | list items ih =>
    cases shape : (site.node id).shape with
    | list elem =>
      have walk : Walk.run site (.list items) id path inherited =
          Walk.runItems site items elem path ((site.node id).witness.or inherited) 0 := by
        simp only [Walk.run, shape]
      rw [walk]
      refine (exact_items path _ 0 ih).congr ?_ ?_ fun var side => (meets_list shape var side).symm
      · exact fun h => ⟨h.1, h.1 id elem (by simp [shape, Shape.parts])⟩
      · constructor
        · exact .list shape
        · intro h
          cases h with
          | list eq each =>
            rw [shape] at eq
            cases eq
            exact each
          | free eq => simp [shape] at eq
    | _ =>
      have apart : (site.node id).shape.opens (.list items) = false := by rw [shape]; rfl
      rw [run_leaf _ id path inherited apart]
      exact (exact_leaf _ id path inherited apart).congr And.right Iff.rfl fun _ _ => Iff.rfl
  | map entries ih =>
    cases shape : (site.node id).shape with
    | map elem =>
      have walk : Walk.run site (.map entries) id path inherited =
          Walk.runEntries site entries elem path ((site.node id).witness.or inherited) := by
        simp only [Walk.run, shape]
      rw [walk]
      refine (exact_entries path _ ih).congr ?_ ?_ fun var side => (meets_map shape var side).symm
      · exact fun h => ⟨h.1, h.1 id elem (by simp [shape, Shape.parts])⟩
      · constructor
        · exact .map shape
        · intro h
          cases h with
          | map eq each =>
            rw [shape] at eq
            cases eq
            exact each
          | record eq => simp [shape] at eq
          | free eq => simp [shape] at eq
    | record row =>
      have exact' := exact_record shape path ((site.node id).witness.or inherited) ih
      simp only [Walk.run, shape]
      exact exact'
    | _ =>
      have apart : (site.node id).shape.opens (.map entries) = false := by rw [shape]; rfl
      rw [run_leaf _ id path inherited apart]
      exact (exact_leaf _ id path inherited apart).congr And.right Iff.rfl fun _ _ => Iff.rfl
  | variant label payload ih =>
    cases shape : (site.node id).shape with
    | variant row => exact exact_variant shape path inherited ih
    | _ =>
      have apart : (site.node id).shape.opens (.variant label (some payload)) = false := by rw [shape]; rfl
      rw [run_leaf _ id path inherited apart]
      exact (exact_leaf _ id path inherited apart).congr And.right Iff.rfl fun _ _ => Iff.rfl

end

end Ral.Boundary
