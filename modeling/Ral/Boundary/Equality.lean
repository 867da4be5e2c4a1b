import Mathlib.Data.String.Basic
import Ral.Boundary.Value

/-! # Equality

The program's `==` on values: structural, stopping at the first difference, and refusing a
block, function or handle it comes to. What it answers on data is whether two values mean the
same, numbers by the rationals they denote.
-/

namespace Ral.Boundary
namespace Value
open Ral.Data (I64 Finite)

/-- What was compared with what. -/
structure Refusal where
  left : String
  right : String
deriving DecidableEq

namespace Refusal

def swap (r : Refusal) : Refusal := ⟨r.right, r.left⟩

end Refusal

/-- Not data: a block, function or handle. -/
def isSuspension : Value → Bool
  | thunk _ => true
  | native => true
  | handle => true
  | _ => false

/-- Two values that are not both lists, both maps or both variants. -/
def equalsFlat : Value → Value → Except Refusal Bool
  | unit, unit => .ok true
  | bool a, bool b => .ok (a == b)
  | string a, string b => .ok (a == b)
  | bytes a, bytes b => .ok (a == b)
  | a, b =>
    match numberOrder a b with
    | some order => .ok (order == .eq)
    | none => if a.isSuspension || b.isSuspension then .error ⟨a.typeName, b.typeName⟩ else .ok false

mutual

def equals : Value → Value → Except Refusal Bool
  | list a, list b => if a.length = b.length then allEqual a b else .ok false
  | map a, map b => if a.length = b.length then entriesEqual a b else .ok false
  | variant la pa, variant lb pb => if la = lb then payloadsEqual pa pb else .ok false
  | a, b => equalsFlat a b

def allEqual : List Value → List Value → Except Refusal Bool
  | a :: as, b :: bs => do
    let eq ← equals a b
    if eq then allEqual as bs else pure false
  | _, _ => pure true

def entriesEqual : List (String × Value) → List (String × Value) → Except Refusal Bool
  | (ka, a) :: as, (kb, b) :: bs =>
    if ka = kb then do
      let eq ← equals a b
      if eq then entriesEqual as bs else pure false
    else pure false
  | _, _ => pure true

def payloadsEqual : Option Value → Option Value → Except Refusal Bool
  | some a, some b => equals a b
  | none, none => pure true
  | _, _ => pure false

end

/-! ## Numbers -/

def number : Value → Option ℚ
  | int n => some n.1
  | float f => some f.value
  | _ => none

theorem compare_of_lt {x y : ℚ} (h : x < y) : Ord.compare x y = .lt := compare_lt_iff_lt.mpr h

theorem compare_of_gt {x y : ℚ} (h : y < x) : Ord.compare x y = .gt := compare_gt_iff_gt.mpr h

/-- Against the integer part, and where that ties, against the rest. -/
theorem then_trunc (i : ℤ) (f : Finite) :
    (Ord.compare i f.trunc).then (Ord.compare 0 (f.value - f.trunc)) = Ord.compare (i : ℚ) f.value := by
  rcases lt_trichotomy i f.trunc with less | same | greater
  · rw [compare_lt_iff_lt.mpr less]
    symm
    apply compare_of_lt
    unfold Finite.trunc at less
    split at less
    · have below : (i : ℚ) + 1 ≤ ⌊f.value⌋ := by exact_mod_cast less
      have floor := Int.floor_le f.value
      linarith
    · exact Int.lt_ceil.mp less
  · rw [same, compare_eq_iff_eq.mpr rfl]
    show Ord.compare 0 (f.value - f.trunc) = _
    rcases lt_trichotomy (f.trunc : ℚ) f.value with less | eq | greater
    · rw [compare_of_lt less, compare_of_lt (by linarith)]
    · rw [compare_eq_iff_eq.mpr eq, compare_eq_iff_eq.mpr (by rw [eq, sub_self])]
    · rw [compare_of_gt greater, compare_of_gt (by linarith)]
  · rw [compare_gt_iff_gt.mpr greater]
    symm
    apply compare_of_gt
    unfold Finite.trunc at greater
    split at greater
    · exact Int.floor_lt.mp greater
    · have above : (⌈f.value⌉ : ℚ) + 1 ≤ i := by exact_mod_cast greater
      have ceil := Int.le_ceil f.value
      linarith

theorem cmpIntFloat_exact (i : I64) (f : Finite) : cmpIntFloat i f = Ord.compare (i.1 : ℚ) f.value := by
  obtain ⟨low, high⟩ := i.2
  have low : (-2 ^ 63 : ℚ) ≤ i.1 := by exact_mod_cast low
  have high : (i.1 : ℚ) < 2 ^ 63 := by exact_mod_cast high
  unfold cmpIntFloat Finite.toI64
  by_cases fits : -2 ^ 63 ≤ f.value ∧ f.value < 2 ^ 63
  · rw [if_pos fits]
    exact then_trunc i.1 f
  · rw [if_neg fits]
    by_cases positive : f.value > 0
    · have beyond : 2 ^ 63 ≤ f.value := by
        by_contra within
        exact fits ⟨by linarith, not_le.mp within⟩
      simp only [positive, if_true]
      exact (compare_of_lt (by linarith)).symm
    · have beyond : f.value < -2 ^ 63 := by
        by_contra within
        exact fits ⟨not_lt.mp within, by linarith⟩
      simp only [positive, if_false]
      exact (compare_of_gt (by linarith)).symm

theorem compare_int_rat (a b : ℤ) : Ord.compare a b = Ord.compare (a : ℚ) (b : ℚ) := by
  rcases lt_trichotomy a b with less | same | greater
  · rw [compare_lt_iff_lt.mpr less, compare_of_lt (by exact_mod_cast less)]
  · rw [same, compare_eq_iff_eq.mpr rfl, compare_eq_iff_eq.mpr rfl]
  · rw [compare_gt_iff_gt.mpr greater, compare_of_gt (by exact_mod_cast greater)]

theorem swap_compare (x y : ℚ) : (Ord.compare x y).swap = Ord.compare y x := by
  rcases lt_trichotomy x y with less | same | greater
  · rw [compare_of_lt less, compare_of_gt less]
    rfl
  · rw [same, compare_eq_iff_eq.mpr rfl]
    rfl
  · rw [compare_of_gt greater, compare_of_lt greater]
    rfl

theorem numberOrder_eq (a b : Value) : numberOrder a b =
    match a.number, b.number with
    | some x, some y => some (Ord.compare x y)
    | _, _ => none := by
  cases a <;> cases b <;> try rfl
  · exact congrArg some (compare_int_rat _ _)
  · exact congrArg some (cmpIntFloat_exact _ _)
  · show some (cmpIntFloat _ _).swap = _
    rw [cmpIntFloat_exact, swap_compare]
    rfl

/-! ## What is equal -/

def Equal (a b : Value) : Prop := equals a b = .ok true

/-- A scalar, a string or bytes: what it means. -/
inductive Leaf
  | unit
  | bool (b : Bool)
  | number (q : ℚ)
  | string (s : String)
  | bytes (bs : List UInt8)

def leaf : Value → Option Leaf
  | unit => some .unit
  | bool b => some (.bool b)
  | int n => some (.number n.1)
  | float f => some (.number f.value)
  | string s => some (.string s)
  | bytes bs => some (.bytes bs)
  | _ => none

/-- Structure has parts; all else is compared at once. -/
def isFlat : Value → Bool
  | list _ => false
  | map _ => false
  | variant _ _ => false
  | _ => true

theorem equals_flat {a b : Value} (h : a.isFlat = true) : equals a b = equalsFlat a b := by
  cases a <;> first | (cases h; done) | simp only [equals]

theorem number_cases {a : Value} {x : ℚ} (h : a.number = some x) :
    (∃ n : I64, a = int n ∧ x = n.1) ∨ ∃ f : Finite, a = float f ∧ x = f.value := by
  cases a with
  | int n => exact .inl ⟨n, rfl, (Option.some.inj h).symm⟩
  | float f => exact .inr ⟨f, rfl, (Option.some.inj h).symm⟩
  | _ => cases h

theorem beq_compare (x y : ℚ) : ((Ord.compare x y) == .eq) = true ↔ x = y := by
  rw [beq_iff_eq]
  exact compare_eq_iff_eq

theorem equalsFlat_numbers {a b : Value} {x y : ℚ} (ha : a.number = some x) (hb : b.number = some y) :
    equalsFlat a b = .ok ((Ord.compare x y) == .eq) := by
  have order := numberOrder_eq a b
  rw [ha, hb] at order
  rcases number_cases ha with ⟨n, rfl, -⟩ | ⟨f, rfl, -⟩ <;>
    rcases number_cases hb with ⟨n', rfl, -⟩ | ⟨f', rfl, -⟩ <;>
    · unfold equalsFlat
      dsimp only
      rw [order]

theorem leaf_of_number {a : Value} {x : ℚ} (h : a.number = some x) : a.leaf = some (.number x) := by
  rcases number_cases h with ⟨n, rfl, rfl⟩ | ⟨f, rfl, rfl⟩ <;> rfl

theorem flat_iff {a b : Value} (h : a.isFlat = true) :
    a.Equal b ↔ ∃ l, a.leaf = some l ∧ b.leaf = some l := by
  unfold Equal
  rw [equals_flat h]
  by_cases numbers : ∃ x y, a.number = some x ∧ b.number = some y
  · obtain ⟨x, y, ha, hb⟩ := numbers
    rw [equalsFlat_numbers ha hb, Except.ok.injEq, beq_compare, leaf_of_number ha, leaf_of_number hb]
    simp [eq_comm]
  · cases a <;> cases b <;>
      simp_all [equalsFlat.eq_def, numberOrder, number, leaf, isFlat, isSuspension]
    all_goals exact eq_comm

theorem and_then {x y : Except Refusal Bool} :
    (do let eq ← x; if eq then y else pure false) = .ok true ↔ x = .ok true ∧ y = .ok true := by
  cases x with
  | error e => exact ⟨nofun, fun h => nomatch h.1⟩
  | ok b =>
    cases b with
    | false => exact ⟨nofun, fun h => nomatch h.1⟩
    | true => exact ⟨fun h => ⟨rfl, h⟩, fun h => h.2⟩

theorem allEqual_iff {as bs : List Value} (same : as.length = bs.length) :
    allEqual as bs = .ok true ↔ List.Forall₂ Equal as bs := by
  induction as generalizing bs with
  | nil =>
    obtain rfl := List.length_eq_zero_iff.mp same.symm
    exact ⟨fun _ => .nil, fun _ => by simp only [allEqual]; rfl⟩
  | cons a as rest =>
    cases bs with
    | nil => cases same
    | cons b bs =>
      rw [allEqual, and_then, rest (Nat.succ.inj same), List.forall₂_cons]
      rfl

def SameEntry (x y : String × Value) : Prop := x.1 = y.1 ∧ x.2.Equal y.2

theorem entriesEqual_iff {as bs : List (String × Value)} (same : as.length = bs.length) :
    entriesEqual as bs = .ok true ↔ List.Forall₂ SameEntry as bs := by
  induction as generalizing bs with
  | nil =>
    obtain rfl := List.length_eq_zero_iff.mp same.symm
    exact ⟨fun _ => .nil, fun _ => by simp only [entriesEqual]; rfl⟩
  | cons x as rest =>
    cases bs with
    | nil => cases same
    | cons y bs =>
      obtain ⟨ka, a⟩ := x
      obtain ⟨kb, b⟩ := y
      rw [entriesEqual, List.forall₂_cons, ← rest (Nat.succ.inj same)]
      by_cases key : ka = kb
      · rw [if_pos key, and_then]
        exact ⟨fun h => ⟨⟨key, h.1⟩, h.2⟩, fun h => ⟨h.1.2, h.2⟩⟩
      · rw [if_neg key]
        exact ⟨nofun, fun h => absurd h.1.1 key⟩

theorem list_iff {as : List Value} {b : Value} :
    (list as).Equal b ↔ ∃ bs, b = list bs ∧ List.Forall₂ Equal as bs := by
  cases b with
  | list bs =>
    unfold Equal
    rw [equals]
    by_cases same : as.length = bs.length
    · rw [if_pos same, allEqual_iff same]
      exact ⟨fun h => ⟨bs, rfl, h⟩, fun ⟨_, eq, h⟩ => by cases eq; exact h⟩
    · rw [if_neg same]
      exact ⟨nofun, fun ⟨_, eq, h⟩ => by cases eq; exact absurd h.length_eq same⟩
  | _ => simp [Equal, equals, equalsFlat, numberOrder, isSuspension]

theorem map_iff {as : List (String × Value)} {b : Value} :
    (map as).Equal b ↔ ∃ bs, b = map bs ∧ List.Forall₂ SameEntry as bs := by
  cases b with
  | map bs =>
    unfold Equal
    rw [equals]
    by_cases same : as.length = bs.length
    · rw [if_pos same, entriesEqual_iff same]
      exact ⟨fun h => ⟨bs, rfl, h⟩, fun ⟨_, eq, h⟩ => by cases eq; exact h⟩
    · rw [if_neg same]
      exact ⟨nofun, fun ⟨_, eq, h⟩ => by cases eq; exact absurd h.length_eq same⟩
  | _ => simp [Equal, equals, equalsFlat, numberOrder, isSuspension]

theorem variant_iff {label : String} {payload : Option Value} {b : Value} :
    (variant label payload).Equal b ↔ ∃ payload', b = variant label payload' ∧
      Option.Rel Equal payload payload' := by
  cases b with
  | variant label' payload' =>
    unfold Equal
    rw [equals]
    by_cases same : label = label'
    · subst same
      rw [if_pos rfl]
      cases payload <;> cases payload' <;> simp [payloadsEqual, pure, Except.pure]
    · rw [if_neg same]
      exact ⟨nofun, fun ⟨_, eq, _⟩ => absurd (Value.variant.inj eq).1.symm same⟩
  | _ => simp [Equal, equals, equalsFlat, numberOrder, isSuspension]

/-! ## Laws -/

theorem Equal.trans {a b c : Value} (ab : a.Equal b) (bc : b.Equal c) : a.Equal c := by
  induction a using Value.induct generalizing b c with
  | list as ih =>
    obtain ⟨bs, rfl, first⟩ := list_iff.mp ab
    obtain ⟨cs, rfl, second⟩ := list_iff.mp bc
    refine list_iff.mpr ⟨cs, rfl, ?_⟩
    clear ab bc
    induction first generalizing cs with
    | nil => exact second
    | @cons a b as bs ab _ rest =>
      obtain ⟨c, cs, bc, tail, rfl⟩ := List.forall₂_cons_left_iff.mp second
      exact .cons (ih a List.mem_cons_self ab bc) (rest (fun x mem => ih x (List.mem_cons_of_mem _ mem)) cs tail)
  | map as ih =>
    obtain ⟨bs, rfl, first⟩ := map_iff.mp ab
    obtain ⟨cs, rfl, second⟩ := map_iff.mp bc
    refine map_iff.mpr ⟨cs, rfl, ?_⟩
    clear ab bc
    induction first generalizing cs with
    | nil => exact second
    | @cons a b as bs ab _ rest =>
      obtain ⟨c, cs, bc, tail, rfl⟩ := List.forall₂_cons_left_iff.mp second
      exact .cons ⟨ab.1.trans bc.1, ih a List.mem_cons_self ab.2 bc.2⟩
        (rest (fun x mem => ih x (List.mem_cons_of_mem _ mem)) cs tail)
  | variant label payload ih =>
    obtain ⟨_, rfl, first⟩ := variant_iff.mp ab
    obtain ⟨_, rfl, second⟩ := variant_iff.mp bc
    refine variant_iff.mpr ⟨_, rfl, ?_⟩
    cases first with
    | some first =>
      cases second with
      | some second => exact .some (ih first second)
  | leaf a notList notMap notVariant =>
    by_cases flat : a.isFlat = true
    · obtain ⟨l, ha, hb⟩ := (flat_iff flat).mp ab
      have flat' : b.isFlat = true := by cases b <;> first | rfl | cases hb
      obtain ⟨l', hb', hc⟩ := (flat_iff flat').mp bc
      rw [hb] at hb'
      cases hb'
      exact (flat_iff flat).mpr ⟨l, ha, hc⟩
    · cases a with
      | variant label payload =>
        cases payload with
        | some payload => exact absurd rfl (notVariant label payload)
        | none =>
          obtain ⟨_, rfl, first⟩ := variant_iff.mp ab
          cases first
          exact bc
      | list as => exact absurd rfl (notList as)
      | map as => exact absurd rfl (notMap as)
      | _ => exact absurd rfl flat

theorem equalsFlat_swap (a b : Value) : equalsFlat b a = (equalsFlat a b).mapError Refusal.swap := by
  by_cases numbers : ∃ x y, a.number = some x ∧ b.number = some y
  · obtain ⟨x, y, ha, hb⟩ := numbers
    rw [equalsFlat_numbers ha hb, equalsFlat_numbers hb ha]
    show _ = Except.ok _
    rw [Except.ok.injEq, Bool.eq_iff_iff, beq_compare, beq_compare]
    exact eq_comm
  · cases a <;> cases b <;>
      simp_all [equalsFlat.eq_def, numberOrder, number, isSuspension, Except.mapError, Refusal.swap, typeName]
    all_goals first | exact Bool.beq_comm | exact eq_comm

theorem swap_then {x y : Except Refusal Bool} :
    (do let eq ← x.mapError Refusal.swap; if eq then y.mapError Refusal.swap else pure false) =
      (do let eq ← x; if eq then y else pure false : Except Refusal Bool).mapError Refusal.swap := by
  cases x with
  | error e => rfl
  | ok b => cases b <;> rfl

/-- Asked the other way round, it answers alike, or refuses alike. -/
theorem equals_swap (a b : Value) : equals b a = (equals a b).mapError Refusal.swap := by
  induction a using Value.induct generalizing b with
  | list as ih =>
    cases b with
    | list bs =>
      have step : allEqual bs as = (allEqual as bs).mapError Refusal.swap := by
        induction as generalizing bs with
        | nil => cases bs <;> simp only [allEqual] <;> rfl
        | cons a as rest =>
          cases bs with
          | nil =>
            simp only [allEqual]
            rfl
          | cons b bs =>
            rw [allEqual, allEqual, ih a List.mem_cons_self b,
              rest (fun x mem => ih x (List.mem_cons_of_mem _ mem)) bs]
            exact swap_then
      rw [equals, equals]
      by_cases same : as.length = bs.length
      · rw [if_pos same, if_pos same.symm, step]
      · rw [if_neg same, if_neg fun eq => same eq.symm]
        rfl
    | _ =>
      simp only [equals]
      exact equalsFlat_swap _ _
  | map as ih =>
    cases b with
    | map bs =>
      have step : entriesEqual bs as = (entriesEqual as bs).mapError Refusal.swap := by
        induction as generalizing bs with
        | nil => cases bs <;> simp only [entriesEqual] <;> rfl
        | cons x as rest =>
          obtain ⟨ka, a⟩ := x
          cases bs with
          | nil =>
            simp only [entriesEqual]
            rfl
          | cons y bs =>
            obtain ⟨kb, b⟩ := y
            rw [entriesEqual, entriesEqual]
            by_cases key : ka = kb
            · rw [if_pos key, if_pos key.symm, ih (ka, a) List.mem_cons_self b,
                rest (fun x mem => ih x (List.mem_cons_of_mem _ mem)) bs]
              exact swap_then
            · rw [if_neg key, if_neg fun eq => key eq.symm]
              rfl
      rw [equals, equals]
      by_cases same : as.length = bs.length
      · rw [if_pos same, if_pos same.symm, step]
      · rw [if_neg same, if_neg fun eq => same eq.symm]
        rfl
    | _ =>
      simp only [equals]
      exact equalsFlat_swap _ _
  | variant label payload ih =>
    cases b with
    | variant label' payload' =>
      rw [equals, equals]
      by_cases same : label = label'
      · rw [if_pos same, if_pos same.symm]
        cases payload' with
        | none =>
          simp only [payloadsEqual]
          rfl
        | some b =>
          simp only [payloadsEqual]
          exact ih b
      · rw [if_neg same, if_neg fun eq => same eq.symm]
        rfl
    | _ =>
      simp only [equals]
      exact equalsFlat_swap _ _
  | leaf a notList notMap notVariant =>
    cases a with
    | list as => exact absurd rfl (notList as)
    | map as => exact absurd rfl (notMap as)
    | variant label payload =>
      cases payload with
      | some payload => exact absurd rfl (notVariant label payload)
      | none =>
        cases b with
        | variant label' payload' =>
          rw [equals, equals]
          by_cases same : label = label'
          · rw [if_pos same, if_pos same.symm]
            cases payload' <;> simp only [payloadsEqual] <;> rfl
          · rw [if_neg same, if_neg fun eq => same eq.symm]
            rfl
        | _ =>
          simp only [equals]
          exact equalsFlat_swap _ _
    | _ =>
      cases b <;> simp only [equals] <;> exact equalsFlat_swap _ _

theorem self_then {x y : Except Refusal Bool} (hx : ∀ r, x = .ok r → r = true)
    (hy : ∀ r, y = .ok r → r = true) {r : Bool}
    (h : (do let eq ← x; if eq then y else pure false) = .ok r) : r = true := by
  cases x with
  | error e => cases h
  | ok b =>
    obtain rfl := hx b rfl
    exact hy r h

/-- No value is found unequal to itself. -/
theorem equals_self {a : Value} : ∀ r, equals a a = .ok r → r = true := by
  induction a using Value.induct with
  | list as ih =>
    rw [equals, if_pos rfl]
    induction as with
    | nil =>
      intro r h
      simp only [allEqual] at h
      exact (Except.ok.inj h).symm
    | cons a as rest =>
      intro r h
      rw [allEqual] at h
      exact self_then (ih a List.mem_cons_self) (rest fun x mem => ih x (List.mem_cons_of_mem _ mem)) h
  | map as ih =>
    rw [equals, if_pos rfl]
    induction as with
    | nil =>
      intro r h
      simp only [entriesEqual] at h
      exact (Except.ok.inj h).symm
    | cons x as rest =>
      intro r h
      obtain ⟨k, a⟩ := x
      rw [entriesEqual, if_pos rfl] at h
      exact self_then (ih (k, a) List.mem_cons_self) (rest fun x mem => ih x (List.mem_cons_of_mem _ mem)) h
  | variant label payload ih =>
    rw [equals, if_pos rfl]
    simp only [payloadsEqual]
    exact ih
  | leaf a notList notMap notVariant =>
    intro r h
    by_cases number : ∃ x, a.number = some x
    · obtain ⟨x, ha⟩ := number
      have flat : a.isFlat = true := by rcases number_cases ha with ⟨n, rfl, -⟩ | ⟨f, rfl, -⟩ <;> rfl
      rw [equals_flat flat, equalsFlat_numbers ha ha, Except.ok.injEq] at h
      rw [← h]
      exact (beq_compare x x).mpr rfl
    · cases a with
      | list as => exact absurd rfl (notList as)
      | map as => exact absurd rfl (notMap as)
      | variant label payload =>
        cases payload with
        | some payload => exact absurd rfl (notVariant label payload)
        | none =>
          rw [equals, if_pos rfl] at h
          simp only [payloadsEqual] at h
          exact (Except.ok.inj h).symm
      | int n => exact absurd ⟨_, rfl⟩ number
      | float f => exact absurd ⟨_, rfl⟩ number
      | _ =>
        simp [equals, equalsFlat, numberOrder, isSuspension] at h
        try exact h.symm
        try exact h

/-! ## Order -/

theorem compare_numbers (op : String) {a b : Value} {x y : ℚ} (ha : a.number = some x)
    (hb : b.number = some y) : a.compare op b = .ok (Ord.compare x y) := by
  have order := numberOrder_eq a b
  rw [ha, hb] at order
  unfold compare
  rw [order]

theorem compare_cases {op : String} {a b : Value} {order : Ordering} (h : a.compare op b = .ok order) :
    (∃ x y, a.number = some x ∧ b.number = some y ∧ order = Ord.compare x y) ∨
      ∃ s t, a = string s ∧ b = string t ∧ order = Ord.compare s t := by
  unfold compare at h
  split at h
  · next order' numbers =>
    cases h
    rw [numberOrder_eq] at numbers
    split at numbers
    · next x y ha hb => exact .inl ⟨x, y, ha, hb, (Option.some.inj numbers).symm⟩
    · cases numbers
  · split at h
    · cases h
      exact .inr ⟨_, _, rfl, rfl, rfl⟩
    · cases h

theorem equal_numbers {a b : Value} {x y : ℚ} (ha : a.number = some x) (hb : b.number = some y) :
    a.Equal b ↔ x = y := by
  have flat : a.isFlat = true := by rcases number_cases ha with ⟨n, rfl, -⟩ | ⟨f, rfl, -⟩ <;> rfl
  rw [flat_iff flat, leaf_of_number ha, leaf_of_number hb]
  simp [eq_comm]

theorem compare_eq_iff {op : String} {a b : Value} {order : Ordering} (h : a.compare op b = .ok order) :
    order = .eq ↔ a.Equal b := by
  rcases compare_cases h with ⟨x, y, ha, hb, rfl⟩ | ⟨s, t, rfl, rfl, rfl⟩
  · rw [equal_numbers ha hb]
    exact compare_eq_iff_eq
  · rw [flat_iff rfl, compare_eq_iff_eq]
    simp [leaf, eq_comm]

/-- Ordered, and not after. -/
def AtMost (op : String) (a b : Value) : Prop := ∃ order, a.compare op b = .ok order ∧ order ≠ .gt

theorem atMost_numbers {op : String} {a b : Value} {x y : ℚ} (ha : a.number = some x)
    (hb : b.number = some y) : AtMost op a b ↔ x ≤ y := by
  unfold AtMost
  rw [compare_numbers op ha hb]
  constructor
  · rintro ⟨_, eq, before⟩
    obtain rfl := Except.ok.inj eq
    by_contra after
    exact before (compare_of_gt (not_le.mp after))
  · intro le
    refine ⟨_, rfl, fun after => ?_⟩
    exact absurd (compare_gt_iff_gt.mp after) (not_lt.mpr le)

/-- Equality is an equivalence where it answers, refuses alike from both sides, and goes by parts;
numbers are ordered as the rationals they denote, a total preorder; and the two agree. -/
theorem equality_and_order_lawful :
    (∀ (a : Value) r, equals a a = .ok r → r = true) ∧
    (∀ a b : Value, equals b a = (equals a b).mapError Refusal.swap) ∧
    (∀ a b c : Value, a.Equal b → b.Equal c → a.Equal c) ∧
    (∀ as bs : List Value, (list as).Equal (list bs) ↔ List.Forall₂ Equal as bs) ∧
    (∀ as bs : List (String × Value), (map as).Equal (map bs) ↔ List.Forall₂ SameEntry as bs) ∧
    (∀ label label' (payload payload' : Option Value), (variant label payload).Equal (variant label' payload') ↔
      label = label' ∧ Option.Rel Equal payload payload') ∧
    (∀ op (a b : Value) x y, a.number = some x → b.number = some y → a.compare op b = .ok (Ord.compare x y)) ∧
    (∀ op (a b : Value), a.number.isSome → b.number.isSome → AtMost op a b ∨ AtMost op b a) ∧
    (∀ op (a b c : Value), a.number.isSome → b.number.isSome → c.number.isSome → AtMost op a b →
      AtMost op b c → AtMost op a c) ∧
    ∀ op (a b : Value) order, a.compare op b = .ok order → (order = .eq ↔ a.Equal b) := by
  refine ⟨fun _ => equals_self, equals_swap, fun _ _ _ => .trans, ?_, ?_, ?_, ?_, ?_, ?_, ?_⟩
  · exact fun as bs => list_iff.trans ⟨fun ⟨_, eq, h⟩ => by cases eq; exact h, fun h => ⟨bs, rfl, h⟩⟩
  · exact fun as bs => map_iff.trans ⟨fun ⟨_, eq, h⟩ => by cases eq; exact h, fun h => ⟨bs, rfl, h⟩⟩
  · intro label label' payload payload'
    exact variant_iff.trans ⟨fun ⟨_, eq, h⟩ => by cases eq; exact ⟨rfl, h⟩,
      fun ⟨eq, h⟩ => ⟨payload', by rw [eq], h⟩⟩
  · exact fun op _ _ _ _ => compare_numbers op
  · intro op a b ha hb
    obtain ⟨x, ha⟩ := Option.isSome_iff_exists.mp ha
    obtain ⟨y, hb⟩ := Option.isSome_iff_exists.mp hb
    rw [atMost_numbers ha hb, atMost_numbers hb ha]
    exact le_total x y
  · intro op a b c ha hb hc ab bc
    obtain ⟨x, ha⟩ := Option.isSome_iff_exists.mp ha
    obtain ⟨y, hb⟩ := Option.isSome_iff_exists.mp hb
    obtain ⟨z, hc⟩ := Option.isSome_iff_exists.mp hc
    rw [atMost_numbers ha hb] at ab
    rw [atMost_numbers hb hc] at bc
    rw [atMost_numbers ha hc]
    exact le_trans ab bc
  · exact fun _ _ _ _ => compare_eq_iff

end Value
end Ral.Boundary
