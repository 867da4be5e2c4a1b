import Mathlib.Algebra.Order.Field.Rat
import Mathlib.Data.Rat.Floor
import Mathlib.Data.Rat.Cast.Order
import Ral.Data.FOValue
import Ral.Typecheck.Kind

/-! # Values at a boundary

A value as a door sees it: data, with blocks and handles opaque, its fields in key
order. Numbers are ordered by magnitude, exactly across integers and floats.
-/

namespace Ral.Data.Finite

/-- The number the bits denote. -/
def value (f : Finite) : ℚ :=
  let exponent := (f.bits.extractLsb' 52 11).toNat
  let fraction := (f.bits.extractLsb' 0 52).toNat
  let magnitude : ℚ :=
    if exponent = 0 then fraction * 2 ^ (-1074 : ℤ)
    else (2 ^ 52 + fraction : ℕ) * 2 ^ ((exponent : ℤ) - 1075)
  if f.bits.msb then -magnitude else magnitude

/-- Towards zero. -/
def trunc (f : Finite) : ℤ := if 0 ≤ f.value then ⌊f.value⌋ else ⌈f.value⌉

/-- The integer part, if it fits a machine integer. -/
def toI64 (f : Finite) : Option ℤ := if -2 ^ 63 ≤ f.value ∧ f.value < 2 ^ 63 then some f.trunc else none

end Ral.Data.Finite

namespace Ral.Boundary

open Ral.Data (I64 Finite)
open Ral.Typecheck (Head)

inductive Value
  | unit
  | bool (b : Bool)
  | int (n : I64)
  | float (f : Finite)
  | string (s : String)
  | bytes (bs : List UInt8)
  | list (items : List Value)
  | map (entries : List (String × Value))
  | variant (label : String) (payload : Option Value)
  | thunk (lambda : Bool)
  | native
  | handle

/-- Which side of the number/text line. -/
inductive Side
  | number
  | text
  deriving DecidableEq

namespace Value

def heads : Value → List Head
  | unit => [.unit]
  | bool _ => [.bool]
  | int _ => [.int]
  | float _ => [.float]
  | string _ => [.string]
  | bytes _ => [.bytes]
  | list _ => [.list]
  | map _ => [.map, .record]
  | variant _ _ => [.variant]
  | thunk _ => [.thunk]
  | native => [.thunk]
  | handle => [.handle]

def side : Value → Option Side
  | int _ => some .number
  | float _ => some .number
  | string _ => some .text
  | _ => none

def isBlock : Value → Bool
  | thunk _ => true
  | native => true
  | _ => false

def entry (name : String) (entries : List (String × Value)) : Option Value :=
  (entries.find? fun e => e.1 = name).map Prod.snd

def typeName : Value → String
  | unit => "Unit"
  | bool _ => "Bool"
  | int _ => "Int"
  | float _ => "Float"
  | string _ => "String"
  | bytes _ => "Bytes"
  | list _ => "List"
  | map _ => "Map"
  | variant _ _ => "Variant"
  | thunk lambda => if lambda then "Lambda" else "Block"
  | native => "Native"
  | handle => "Handle"

/-! ## The order -/

def cmpIntFloat (i : I64) (f : Finite) : Ordering :=
  match f.toI64 with
  | none => if f.value > 0 then .lt else .gt
  | some whole => (compare i.1 whole).then (compare 0 (f.value - f.trunc))

/-- Numbers by magnitude, `none` for a non-number. -/
def numberOrder : Value → Value → Option Ordering
  | int a, int b => some (compare a.1 b.1)
  | int a, float b => some (cmpIntFloat a b)
  | float a, int b => some (cmpIntFloat b a).swap
  | float a, float b => some (compare a.value b.value)
  | _, _ => none

/-- Numbers by magnitude and strings lexicographically; `op` names the asker. An error
is its message and its hint. -/
def compare (op : String) (a b : Value) : Except (String × String) Ordering :=
  match numberOrder a b with
  | some order => .ok order
  | none =>
    match a, b with
    | string a, string b => .ok (Ord.compare a b)
    | a, b => .error (op ++ ": cannot compare " ++ a.typeName ++ " with " ++ b.typeName,
        "ordering is defined on numbers and strings")

theorem compare_of_side {a b : Value} {s : Side} (ha : a.side = some s) (hb : b.side = some s) (op : String) :
    ∃ order, a.compare op b = .ok order := by
  cases a <;> cases b <;> simp only [side, Option.some.injEq, reduceCtorEq] at ha hb <;>
    first
    | exact ⟨_, rfl⟩
    | (subst ha; cases hb)

/-! ## Data -/

mutual

/-- No block or handle anywhere in it. -/
def isData : Value → Bool
  | thunk _ => false
  | native => false
  | handle => false
  | list items => allData items
  | map entries => entriesData entries
  | variant _ payload => payloadData payload
  | _ => true

def allData : List Value → Bool
  | [] => true
  | v :: vs => v.isData && allData vs

def entriesData : List (String × Value) → Bool
  | [] => true
  | (_, v) :: es => v.isData && entriesData es

def payloadData : Option Value → Bool
  | none => true
  | some v => v.isData

end

/-! ## Recursion -/

/-- On a value through its elements, its entries and its payload. -/
@[elab_as_elim] theorem induct {P : Value → Prop} (leaf : ∀ v, (∀ items, v ≠ .list items) →
      (∀ entries, v ≠ .map entries) → (∀ label payload, v ≠ .variant label (some payload)) → P v)
    (list : ∀ items, (∀ v ∈ items, P v) → P (.list items))
    (map : ∀ entries, (∀ e ∈ entries, P e.2) → P (.map entries))
    (variant : ∀ label payload, P payload → P (.variant label (some payload))) (v : Value) : P v := by
  refine @Value.rec P (fun items => ∀ v ∈ items, P v) (fun entries => ∀ e ∈ entries, P e.2)
    (fun payload => ∀ v ∈ payload, P v) (fun e => P e.2) ?unit ?bool ?int ?float ?string ?bytes list map ?variant
    ?thunk ?native ?handle ?nil ?cons ?nil' ?cons' ?none ?some ?pair v
  case variant =>
    intro label payload ih
    cases payload with
    | none => exact leaf _ (by simp) (by simp) (by simp)
    | some payload => exact variant label payload (ih payload rfl)
  case nil => simp
  case cons =>
    intro v vs hv hvs x mem
    rcases List.mem_cons.mp mem with rfl | mem
    · exact hv
    · exact hvs x mem
  case nil' => simp
  case cons' =>
    intro e es he hes x mem
    rcases List.mem_cons.mp mem with rfl | mem
    · exact he
    · exact hes x mem
  case none => simp
  case some =>
    intro v hv x eq
    rwa [← Option.some.inj eq]
  case pair => exact fun _ _ h => h
  all_goals
    intros
    exact leaf _ (by simp) (by simp) (by simp)

end Value

end Ral.Boundary
