import Mathlib.Data.String.Basic
import Ral.Data.FOValue
import Ral.Data.SortedMap

/-! # Values and the environments they capture

A closure names the environment it captured by its address: two closures over one
allocation share it. Bodies and schemes are carried as they are.
-/

namespace Ral.Seed

open Ral.Data (I64 Finite)

inductive Convention
  | value
  | argv
deriving DecidableEq

/-- A row of the builtin table, less its body. -/
structure BuiltinEntry where
  name : String
  convention : Convention
deriving DecidableEq

/-- What a host installs. A name repeated, in one set or across two, panics at install. -/
structure BuiltinTable where
  rows : List BuiltinEntry
  distinct : (rows.map BuiltinEntry.name).Nodup

def BuiltinTable.value (table : BuiltinTable) (name : String) : Option BuiltinEntry :=
  table.rows.find? fun entry => entry.name == name && entry.convention = .value

/-- A list or a map is what iterating it yields: an element of a literal is read from
the literal's environment, and a block there closes over that same environment. -/
inductive Value (Code : Type)
  | unit
  | bool (b : Bool)
  | int (n : I64)
  | float (f : Finite)
  | string (s : String)
  | bytes (bs : List UInt8)
  | list (items : List (Value Code))
  | map (entries : List (String × Value Code))
  | variant (label : String) (payload : Option (Value Code))
  | thunk (comp : Code) (env : ℕ)
  | native (entry : BuiltinEntry)
  | handle

structure Binding (Code Scheme : Type) where
  value : Value Code
  scheme : Option Scheme

/-- In the order iteration yields them. -/
abbrev Env (Code Scheme : Type) := List (String × Binding Code Scheme)

variable {Code Scheme : Type}

def Env.binding (env : Env Code Scheme) (name : String) : Option (Binding Code Scheme) :=
  (env.find? fun e => e.1 = name).map Prod.snd

/-! ## What a value holds -/

namespace Value

mutual

def captured : Value Code → List ℕ
  | list items => capturedItems items
  | map entries => capturedEntries entries
  | variant _ (some p) => captured p
  | thunk _ env => [env]
  | _ => []

def capturedItems : List (Value Code) → List ℕ
  | [] => []
  | v :: rest => captured v ++ capturedItems rest

def capturedEntries : List (String × Value Code) → List ℕ
  | [] => []
  | (_, v) :: rest => captured v ++ capturedEntries rest

end

mutual

/-- No handle, and each native one of the table's values. -/
def crosses (table : BuiltinTable) : Value Code → Prop
  | list items => crossesItems table items
  | map entries => crossesEntries table entries
  | variant _ (some p) => crosses table p
  | native entry => entry ∈ table.rows ∧ entry.convention = .value
  | handle => False
  | _ => True

def crossesItems (table : BuiltinTable) : List (Value Code) → Prop
  | [] => True
  | v :: rest => crosses table v ∧ crossesItems table rest

def crossesEntries (table : BuiltinTable) : List (String × Value Code) → Prop
  | [] => True
  | (_, v) :: rest => crosses table v ∧ crossesEntries table rest

end

mutual

/-- A map iterates in key order, each key once, and no payload is `unit`. -/
def formed : Value Code → Prop
  | list items => formedItems items
  | map entries => (entries.Pairwise fun a b => a.1 < b.1) ∧ formedEntries entries
  | variant _ (some p) => (match p with | unit => False | _ => True) ∧ formed p
  | _ => True

def formedItems : List (Value Code) → Prop
  | [] => True
  | v :: rest => formed v ∧ formedItems rest

def formedEntries : List (String × Value Code) → Prop
  | [] => True
  | (_, v) :: rest => formed v ∧ formedEntries rest

end

mutual

def relocate (g : ℕ → ℕ) : Value Code → Value Code
  | list items => list (relocateItems g items)
  | map entries => map (relocateEntries g entries)
  | variant label (some p) => variant label (some (relocate g p))
  | thunk comp env => thunk comp (g env)
  | v => v

def relocateItems (g : ℕ → ℕ) : List (Value Code) → List (Value Code)
  | [] => []
  | v :: rest => relocate g v :: relocateItems g rest

def relocateEntries (g : ℕ → ℕ) : List (String × Value Code) → List (String × Value Code)
  | [] => []
  | (k, v) :: rest => (k, relocate g v) :: relocateEntries g rest

end

theorem capturedItems_eq (items : List (Value Code)) : capturedItems items = items.flatMap captured := by
  induction items with
  | nil => rfl
  | cons v rest ih => rw [capturedItems, ih, List.flatMap_cons]

theorem capturedEntries_eq (entries : List (String × Value Code)) :
    capturedEntries entries = entries.flatMap fun e => e.2.captured := by
  induction entries with
  | nil => rfl
  | cons e rest ih => rw [capturedEntries, ih, List.flatMap_cons]

theorem crossesItems_iff {table : BuiltinTable} {items : List (Value Code)} :
    crossesItems table items ↔ ∀ v ∈ items, v.crosses table := by
  induction items with
  | nil => simp [crossesItems]
  | cons v rest ih => simp [crossesItems, ih]

theorem formedItems_iff {items : List (Value Code)} : formedItems items ↔ ∀ v ∈ items, v.formed := by
  induction items with
  | nil => simp [formedItems]
  | cons v rest ih => simp [formedItems, ih]

theorem relocateItems_eq (g : ℕ → ℕ) (items : List (Value Code)) :
    relocateItems g items = items.map (relocate g) := by
  induction items with
  | nil => rfl
  | cons v rest ih => rw [relocateItems, ih, List.map_cons]

theorem keys_relocateEntries (g : ℕ → ℕ) (entries : List (String × Value Code)) :
    (relocateEntries g entries).map Prod.fst = entries.map Prod.fst := by
  induction entries with
  | nil => rfl
  | cons e rest ih =>
    rw [relocateEntries, List.map_cons, List.map_cons, ih]

end Value

namespace Binding

def relocate (g : ℕ → ℕ) (b : Binding Code Scheme) : Binding Code Scheme := { b with value := b.value.relocate g }

end Binding

/-! ## Memory -/

/-- The environments by address. Each is allocated after those its closures captured,
and never written again. -/
structure Memory (Code Scheme : Type) where
  env : ℕ → Env Code Scheme
  distinct : ∀ a, ((env a).map Prod.fst).Nodup
  older : ∀ a, ∀ e ∈ env a, ∀ c ∈ e.2.value.captured, c < a
  formed : ∀ a, ∀ e ∈ env a, e.2.value.formed

theorem BuiltinTable.value_eq {table : BuiltinTable} {entry : BuiltinEntry} (mem : entry ∈ table.rows)
    (conv : entry.convention = .value) : table.value entry.name = some entry := by
  unfold BuiltinTable.value
  cases found : table.rows.find? fun e => e.name == entry.name && e.convention = .value with
  | none =>
    have none := List.find?_eq_none.mp found entry mem
    simp [conv] at none
  | some e =>
    have same := List.find?_some found
    simp only [Bool.and_eq_true, beq_iff_eq, decide_eq_true_eq] at same
    rw [List.inj_on_of_nodup_map table.distinct (List.mem_of_find?_eq_some found) mem same.1]

namespace Env

theorem mem_of_binding {env : Env Code Scheme} {name : String} {b : Binding Code Scheme}
    (h : env.binding name = some b) : (name, b) ∈ env := by
  obtain ⟨e, found, rfl⟩ := Option.map_eq_some_iff.mp h
  have same : e.1 = name := by simpa using List.find?_some found
  rw [← same]
  exact List.mem_of_find?_eq_some found

theorem binding_eq_some {env : Env Code Scheme} (distinct : (env.map Prod.fst).Nodup) {name : String}
    {b : Binding Code Scheme} : env.binding name = some b ↔ (name, b) ∈ env := by
  constructor
  · exact mem_of_binding
  · intro mem
    unfold binding
    cases found : env.find? fun e => e.1 = name with
    | none =>
      have none := List.find?_eq_none.mp found (name, b) mem
      simp at none
    | some e =>
      have same : e.1 = name := by simpa using List.find?_some found
      rw [List.inj_on_of_nodup_map distinct (List.mem_of_find?_eq_some found) mem same]
      rfl

theorem binding_perm {env env' : Env Code Scheme} (perm : env.Perm env') (distinct : (env.map Prod.fst).Nodup)
    (name : String) : env.binding name = env'.binding name := by
  have distinct' : (env'.map Prod.fst).Nodup := (perm.map _).nodup_iff.mp distinct
  apply Option.ext
  intro b
  rw [binding_eq_some distinct, binding_eq_some distinct', perm.mem_iff]

theorem binding_relocate (g : ℕ → ℕ) (env : Env Code Scheme) (name : String) :
    binding (env.map fun e => (e.1, e.2.relocate g)) name = (env.binding name).map (Binding.relocate g) := by
  unfold binding
  rw [List.find?_map, Option.map_map, Option.map_map]
  rfl

end Env

end Ral.Seed
