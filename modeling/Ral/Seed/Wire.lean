import Ral.Seed.Value

/-! # Values on the wire

First-order data with a slot for what is not data: a fold each way, and a visit of
what fills the slots. A closure crosses with the number of its environment's row, a
native by name.
-/

namespace Ral.Seed

open Ral.Data (I64 Finite)

inductive FOValue (X : Type)
  | unit
  | bool (value : Bool)
  | int (value : I64)
  | float (value : Finite)
  | string (value : String)
  | bytes (value : List UInt8)
  | list (items : List (FOValue X))
  | map (entries : List (String × FOValue X))
  | variant (label : String) (payload : Option (FOValue X))
  | ext (x : X)

/-- A value that is not data. -/
inductive Leaf (Code : Type)
  | thunk (comp : Code) (env : ℕ)
  | native (entry : BuiltinEntry)
  | handle

variable {Code Scheme X σ ε : Type}

namespace FOValue

mutual

def walk (leaf : Leaf Code → σ → Except ε (FOValue X × σ)) :
    Value Code → σ → Except ε (FOValue X × σ)
  | .unit, s => .ok (unit, s)
  | .bool b, s => .ok (bool b, s)
  | .int n, s => .ok (int n, s)
  | .float f, s => .ok (float f, s)
  | .string t, s => .ok (string t, s)
  | .bytes bs, s => .ok (bytes bs, s)
  | .list items, s =>
    match walkItems leaf items s with
    | .ok (items, s) => .ok (list items, s)
    | .error e => .error e
  | .map entries, s =>
    match walkEntries leaf entries s with
    | .ok (entries, s) => .ok (map entries, s)
    | .error e => .error e
  | .variant label none, s => .ok (variant label none, s)
  | .variant label (some p), s =>
    match walk leaf p s with
    | .ok (p, s) => .ok (variant label (some p), s)
    | .error e => .error e
  | .thunk comp env, s => leaf (.thunk comp env) s
  | .native entry, s => leaf (.native entry) s
  | .handle, s => leaf .handle s

def walkItems (leaf : Leaf Code → σ → Except ε (FOValue X × σ)) :
    List (Value Code) → σ → Except ε (List (FOValue X) × σ)
  | [], s => .ok ([], s)
  | v :: rest, s =>
    match walk leaf v s with
    | .error e => .error e
    | .ok (v, s) =>
      match walkItems leaf rest s with
      | .error e => .error e
      | .ok (rest, s) => .ok (v :: rest, s)

def walkEntries (leaf : Leaf Code → σ → Except ε (FOValue X × σ)) :
    List (String × Value Code) → σ → Except ε (List (String × FOValue X) × σ)
  | [], s => .ok ([], s)
  | (k, v) :: rest, s =>
    match walk leaf v s with
    | .error e => .error e
    | .ok (v, s) =>
      match walkEntries leaf rest s with
      | .error e => .error e
      | .ok (rest, s) => .ok ((k, v) :: rest, s)

end

/-- A unit payload is the absent one. -/
def variantOf (label : String) : Option (Value Code) → Value Code
  | some .unit => .variant label none
  | p => .variant label p

mutual

def unwalk (rebuild : X → Except ε (Value Code)) : FOValue X → Except ε (Value Code)
  | unit => .ok .unit
  | bool b => .ok (.bool b)
  | int n => .ok (.int n)
  | float f => .ok (.float f)
  | string t => .ok (.string t)
  | bytes bs => .ok (.bytes bs)
  | list items =>
    match unwalkItems rebuild items with
    | .ok items => .ok (.list items)
    | .error e => .error e
  | map entries =>
    match unwalkEntries rebuild entries with
    | .ok entries => .ok (.map (SortedMap.ofList entries).entries)
    | .error e => .error e
  | variant label none => .ok (variantOf label none)
  | variant label (some p) =>
    match unwalk rebuild p with
    | .ok p => .ok (variantOf label (some p))
    | .error e => .error e
  | ext x => rebuild x

def unwalkItems (rebuild : X → Except ε (Value Code)) : List (FOValue X) → Except ε (List (Value Code))
  | [] => .ok []
  | v :: rest =>
    match unwalk rebuild v with
    | .error e => .error e
    | .ok v =>
      match unwalkItems rebuild rest with
      | .error e => .error e
      | .ok rest => .ok (v :: rest)

def unwalkEntries (rebuild : X → Except ε (Value Code)) :
    List (String × FOValue X) → Except ε (List (String × Value Code))
  | [] => .ok []
  | (k, v) :: rest =>
    match unwalk rebuild v with
    | .error e => .error e
    | .ok v =>
      match unwalkEntries rebuild rest with
      | .error e => .error e
      | .ok rest => .ok ((k, v) :: rest)

end

mutual

/-- Every extension, in order, through data alone. -/
def exts : FOValue X → List X
  | ext x => [x]
  | list items => extsItems items
  | map entries => extsEntries entries
  | variant _ (some p) => exts p
  | _ => []

def extsItems : List (FOValue X) → List X
  | [] => []
  | v :: rest => exts v ++ extsItems rest

def extsEntries : List (String × FOValue X) → List X
  | [] => []
  | (_, v) :: rest => exts v ++ extsEntries rest

end

/-- Visit every extension. -/
def forEachExt (v : FOValue X) (f : X → σ → σ) (s : σ) : σ := v.exts.foldl (fun s x => f x s) s

end FOValue

inductive SerialClosure (Code : Type)
  | thunk (comp : Code) (env : UInt32)
  | native (name : String)

abbrev SerialValue (Code : Type) := FOValue (SerialClosure Code)

structure SerialBinding (Code Scheme : Type) where
  value : SerialValue Code
  scheme : Option Scheme

/-- A row for each interned environment, in the order they were found. -/
abbrev ScopeTable (Code Scheme : Type) := List (List (String × SerialBinding Code Scheme))

/-! ## What a walk writes -/

mutual

def serial (f : ℕ → UInt32) : Value Code → SerialValue Code
  | .unit => .unit
  | .bool b => .bool b
  | .int n => .int n
  | .float x => .float x
  | .string t => .string t
  | .bytes bs => .bytes bs
  | .list items => .list (serialItems f items)
  | .map entries => .map (serialEntries f entries)
  | .variant label none => .variant label none
  | .variant label (some p) => .variant label (some (serial f p))
  | .thunk comp env => .ext (.thunk comp (f env))
  | .native entry => .ext (.native entry.name)
  | .handle => .unit

def serialItems (f : ℕ → UInt32) : List (Value Code) → List (SerialValue Code)
  | [] => []
  | v :: rest => serial f v :: serialItems f rest

def serialEntries (f : ℕ → UInt32) : List (String × Value Code) → List (String × SerialValue Code)
  | [] => []
  | (k, v) :: rest => (k, serial f v) :: serialEntries f rest

end

def SerialClosure.row : SerialClosure Code → Option UInt32
  | .thunk _ env => some env
  | .native _ => none

namespace FOValue

def refs (v : SerialValue Code) : List UInt32 := v.exts.filterMap SerialClosure.row

end FOValue

/-! ## The numbering matters only where a closure captured -/

mutual

theorem serial_congr {f f' : ℕ → UInt32} : (v : Value Code) → (∀ a ∈ v.captured, f a = f' a) →
    serial f v = serial f' v
  | .list items, h => congrArg _ (serialItems_congr items h)
  | .map entries, h => congrArg _ (serialEntries_congr entries h)
  | .variant _ (some p), h => congrArg (fun x => FOValue.variant _ (some x)) (serial_congr p h)
  | .thunk comp env, h => by
    have same := h env (List.mem_singleton.mpr rfl)
    rw [serial, serial, same]
  | .unit, _ | .bool _, _ | .int _, _ | .float _, _ | .string _, _ | .bytes _, _ | .variant _ none, _
  | .native _, _ | .handle, _ => rfl

theorem serialItems_congr {f f' : ℕ → UInt32} : (items : List (Value Code)) →
    (∀ a ∈ Value.capturedItems items, f a = f' a) → serialItems f items = serialItems f' items
  | [], _ => rfl
  | v :: rest, h => by
    have here := serial_congr v fun a ha => h a (List.mem_append_left _ ha)
    have later := serialItems_congr rest fun a ha => h a (List.mem_append_right _ ha)
    rw [serialItems, serialItems, here, later]

theorem serialEntries_congr {f f' : ℕ → UInt32} : (entries : List (String × Value Code)) →
    (∀ a ∈ Value.capturedEntries entries, f a = f' a) → serialEntries f entries = serialEntries f' entries
  | [], _ => rfl
  | (k, v) :: rest, h => by
    have here := serial_congr v fun a ha => h a (List.mem_append_left _ ha)
    have later := serialEntries_congr rest fun a ha => h a (List.mem_append_right _ ha)
    rw [serialEntries, serialEntries, here, later]

end

/-! ## Every captured environment is a dependency -/

mutual

theorem refs_serial (f : ℕ → UInt32) : (v : Value Code) → (serial f v).refs = v.captured.map f
  | .list items => refs_serialItems f items
  | .map entries => refs_serialEntries f entries
  | .variant _ (some p) => refs_serial f p
  | .thunk _ _ => rfl
  | .unit | .bool _ | .int _ | .float _ | .string _ | .bytes _ | .variant _ none | .native _ | .handle => rfl

theorem refs_serialItems (f : ℕ → UInt32) : (items : List (Value Code)) →
    (FOValue.extsItems (serialItems f items)).filterMap SerialClosure.row = (Value.capturedItems items).map f
  | [] => rfl
  | v :: rest => by
    have here := refs_serial f v
    have later := refs_serialItems f rest
    unfold FOValue.refs at here
    rw [serialItems, FOValue.extsItems, List.filterMap_append, here, later, Value.capturedItems, List.map_append]

theorem refs_serialEntries (f : ℕ → UInt32) : (entries : List (String × Value Code)) →
    (FOValue.extsEntries (serialEntries f entries)).filterMap SerialClosure.row =
      (Value.capturedEntries entries).map f
  | [] => rfl
  | (_, v) :: rest => by
    have here := refs_serial f v
    have later := refs_serialEntries f rest
    unfold FOValue.refs at here
    rw [serialEntries, FOValue.extsEntries, List.filterMap_append, here, later, Value.capturedEntries,
      List.map_append]

end

/-! ## There and back -/

/-- Rebuilding takes each closure's row to where `g` puts its environment, and each
native to itself. -/
structure Rebuilds (table : BuiltinTable) (f : ℕ → UInt32) (g : ℕ → ℕ)
    (rebuild : SerialClosure Code → Except ε (Value Code)) (among : List ℕ) : Prop where
  thunk : ∀ a ∈ among, ∀ comp, rebuild (.thunk comp (f a)) = .ok (.thunk comp (g a))
  native : ∀ entry ∈ table.rows, entry.convention = .value → rebuild (.native entry.name) = .ok (.native entry)

section Back

variable {table : BuiltinTable} {f : ℕ → UInt32} {g : ℕ → ℕ}
  {rebuild : SerialClosure Code → Except ε (Value Code)}

theorem Rebuilds.sub {among within : List ℕ} (h : Rebuilds table f g rebuild among)
    (sub : ∀ a ∈ within, a ∈ among) : Rebuilds table f g rebuild within where
  thunk a mem := h.thunk a (sub a mem)
  native := h.native

theorem relocate_ne_unit {p : Value Code} (ne : match p with | .unit => False | _ => True) (label : String) :
    FOValue.variantOf label (some (p.relocate g)) = .variant label (some (p.relocate g)) := by
  cases p with
  | unit => exact ne.elim
  | variant _ q => cases q <;> rfl
  | bool | int | float | string | bytes | list | map | thunk | native | handle => rfl

mutual

theorem unwalk_serial : (v : Value Code) → Rebuilds table f g rebuild v.captured → v.crosses table →
    v.formed → (serial f v).unwalk rebuild = .ok (v.relocate g)
  | .list items, h, cross, formed => by
    have inner := unwalk_serialItems items h cross formed
    rw [serial, FOValue.unwalk, inner]
    rfl
  | .map entries, h, cross, formed => by
    have inner := unwalk_serialEntries entries h cross formed.2
    have ascending : (Value.relocateEntries g entries).Pairwise fun a b => a.1 < b.1 := by
      rw [← List.pairwise_map (f := Prod.fst) (R := fun a b => a < b), Value.keys_relocateEntries,
        List.pairwise_map]
      exact formed.1
    rw [serial, FOValue.unwalk, inner]
    exact congrArg (fun m : SortedMap String (Value Code) => Except.ok (Value.map m.entries))
      (SortedMap.ofList_entries ⟨_, ascending⟩)
  | .variant label (some p), h, cross, formed => by
    have inner := unwalk_serial p h cross formed.2
    rw [serial, FOValue.unwalk, inner]
    exact congrArg _ (relocate_ne_unit formed.1 label)
  | .thunk comp env, h, _, _ => h.thunk env (List.mem_singleton.mpr rfl) comp
  | .native entry, h, cross, _ => h.native entry cross.1 cross.2
  | .handle, _, cross, _ => cross.elim
  | .unit, _, _, _ | .bool _, _, _, _ | .int _, _, _, _ | .float _, _, _, _ | .string _, _, _, _
  | .bytes _, _, _, _ | .variant _ none, _, _, _ => rfl

theorem unwalk_serialItems : (items : List (Value Code)) →
    Rebuilds table f g rebuild (Value.capturedItems items) → Value.crossesItems table items →
    Value.formedItems items →
    FOValue.unwalkItems rebuild (serialItems f items) = .ok (Value.relocateItems g items)
  | [], _, _, _ => rfl
  | v :: rest, h, cross, formed => by
    have here := unwalk_serial v (h.sub fun a ha => List.mem_append_left _ ha) cross.1 formed.1
    have later := unwalk_serialItems rest (h.sub fun a ha => List.mem_append_right _ ha) cross.2 formed.2
    rw [serialItems, FOValue.unwalkItems, here]
    dsimp only
    rw [later]
    rfl

theorem unwalk_serialEntries : (entries : List (String × Value Code)) →
    Rebuilds table f g rebuild (Value.capturedEntries entries) → Value.crossesEntries table entries →
    Value.formedEntries entries →
    FOValue.unwalkEntries rebuild (serialEntries f entries) = .ok (Value.relocateEntries g entries)
  | [], _, _, _ => rfl
  | (k, v) :: rest, h, cross, formed => by
    have here := unwalk_serial v (h.sub fun a ha => List.mem_append_left _ ha) cross.1 formed.1
    have later := unwalk_serialEntries rest (h.sub fun a ha => List.mem_append_right _ ha) cross.2 formed.2
    rw [serialEntries, FOValue.unwalkEntries, here]
    dsimp only
    rw [later]
    rfl

end

end Back

/-! ## Rebuilding more rebuilds the same -/

section More

variable {rebuild rebuild' : X → Except ε (Value Code)}

mutual

theorem unwalk_mono (more : ∀ x v, rebuild x = .ok v → rebuild' x = .ok v) : (w : FOValue X) →
    (v : Value Code) → w.unwalk rebuild = .ok v → w.unwalk rebuild' = .ok v
  | .list items, v, h => by
    rw [FOValue.unwalk] at h ⊢
    cases made : FOValue.unwalkItems rebuild items with
    | error e =>
      rw [made] at h
      cases h
    | ok vs =>
      rw [made] at h
      rw [unwalkItems_mono more items vs made]
      exact h
  | .map entries, v, h => by
    rw [FOValue.unwalk] at h ⊢
    cases made : FOValue.unwalkEntries rebuild entries with
    | error e =>
      rw [made] at h
      cases h
    | ok vs =>
      rw [made] at h
      rw [unwalkEntries_mono more entries vs made]
      exact h
  | .variant label (some p), v, h => by
    rw [FOValue.unwalk] at h ⊢
    cases made : FOValue.unwalk rebuild p with
    | error e =>
      rw [made] at h
      cases h
    | ok q =>
      rw [made] at h
      rw [unwalk_mono more p q made]
      exact h
  | .ext x, v, h => more x v h
  | .unit, _, h | .bool _, _, h | .int _, _, h | .float _, _, h | .string _, _, h | .bytes _, _, h
  | .variant _ none, _, h => h

theorem unwalkItems_mono (more : ∀ x v, rebuild x = .ok v → rebuild' x = .ok v) :
    (ws : List (FOValue X)) → (vs : List (Value Code)) →
    FOValue.unwalkItems rebuild ws = .ok vs → FOValue.unwalkItems rebuild' ws = .ok vs
  | [], _, h => h
  | w :: rest, vs, h => by
    rw [FOValue.unwalkItems] at h ⊢
    cases made : FOValue.unwalk rebuild w with
    | error e =>
      rw [made] at h
      cases h
    | ok v =>
      rw [made] at h
      rw [unwalk_mono more w v made]
      dsimp only at h ⊢
      cases others : FOValue.unwalkItems rebuild rest with
      | error e =>
        rw [others] at h
        cases h
      | ok vs' =>
        rw [others] at h
        rw [unwalkItems_mono more rest vs' others]
        exact h

theorem unwalkEntries_mono (more : ∀ x v, rebuild x = .ok v → rebuild' x = .ok v) :
    (ws : List (String × FOValue X)) → (vs : List (String × Value Code)) →
    FOValue.unwalkEntries rebuild ws = .ok vs → FOValue.unwalkEntries rebuild' ws = .ok vs
  | [], _, h => h
  | (k, w) :: rest, vs, h => by
    rw [FOValue.unwalkEntries] at h ⊢
    cases made : FOValue.unwalk rebuild w with
    | error e =>
      rw [made] at h
      cases h
    | ok v =>
      rw [made] at h
      rw [unwalk_mono more w v made]
      dsimp only at h ⊢
      cases others : FOValue.unwalkEntries rebuild rest with
      | error e =>
        rw [others] at h
        cases h
      | ok vs' =>
        rw [others] at h
        rw [unwalkEntries_mono more rest vs' others]
        exact h

end

end More

end Ral.Seed
