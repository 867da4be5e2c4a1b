import Mathlib.Algebra.Group.Int.Defs
import Mathlib.Algebra.Group.Nat.Defs
import Mathlib.Data.List.Forall2
import Mathlib.Data.Int.Notation
import Mathlib.Data.Nat.Notation

/-! # First-order data

The vocabulary of the wire: data all the way down. `Same` is equality up to the
order of a record's fields and to how the absence of a payload is written.
-/

namespace Ral.Data

/-- The values of a machine integer. -/
abbrev I64 : Type := {n : ℤ // -2 ^ 63 ≤ n ∧ n < 2 ^ 63}

/-- A float that is neither NaN nor infinite, as its bits. -/
structure Finite where
  bits : BitVec 64
  finite : bits.extractLsb' 52 11 ≠ BitVec.allOnes 11
deriving DecidableEq

inductive FOValue
  | unit
  | bool (value : Bool)
  | int (value : I64)
  | float (value : Finite)
  | string (value : String)
  | bytes (value : List UInt8)
  | list (items : List FOValue)
  | map (entries : List (String × FOValue))
  | variant (label : String) (payload : Option FOValue)

def plural (n : ℕ) (noun : String) : String :=
  if n = 1 then "1 " ++ noun else toString n ++ " " ++ noun ++ "s"

namespace FOValue

/-- The value's shape, named without quoting it. -/
def shape : FOValue → String
  | unit => "()"
  | bool _ => "a Bool"
  | int _ => "an Int"
  | float _ => "a Float"
  | string _ => "a Str"
  | bytes value => toString value.length ++ " bytes"
  | list items => "a list of " ++ plural items.length "element"
  | map entries => "a record of " ++ plural entries.length "field"
  | variant label none => "the bare tag `" ++ label ++ "`"
  | variant label (some p) => "`" ++ label ++ "` carrying " ++ shape p

def field (v : FOValue) (key : String) : Option FOValue :=
  match v with
  | map entries => (entries.find? fun e => e.1 == key).map Prod.snd
  | _ => none

def asInt : FOValue → Option I64
  | int n => some n
  | _ => none

def asStr : FOValue → Option String
  | string s => some s
  | _ => none

def asBool : FOValue → Option Bool
  | bool b => some b
  | _ => none

def asList : FOValue → Option (List FOValue)
  | list items => some items
  | _ => none

/-- A `Unit` payload is an absent one. -/
def present : Option FOValue → Option FOValue
  | some unit => none
  | p => p

/-! ## Equality on the wire -/

/-- Equal up to the order of fields and to a `Unit` payload written out. -/
inductive Same : FOValue → FOValue → Prop
  | refl (v : FOValue) : Same v v
  | list {xs ys : List FOValue} (h : List.Forall₂ Same xs ys) : Same (list xs) (list ys)
  | map {xs xs' ys ys' : List (String × FOValue)} (hx : xs.Perm xs') (hy : ys'.Perm ys)
      (hkeys : xs'.map Prod.fst = ys'.map Prod.fst)
      (h : List.Forall₂ Same (xs'.map Prod.snd) (ys'.map Prod.snd)) : Same (map xs) (map ys)
  | bare {l : String} {p q : Option FOValue} (hp : present p = none) (hq : present q = none) :
      Same (variant l p) (variant l q)
  | carrying {l : String} {p q : Option FOValue} {x y : FOValue} (hp : present p = some x)
      (hq : present q = some y) (h : Same x y) : Same (variant l p) (variant l q)

end FOValue

end Ral.Data
