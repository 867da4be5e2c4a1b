import Mathlib.Algebra.Group.Int.Defs
import Mathlib.Algebra.Group.Nat.Defs
import Mathlib.Data.Int.Notation
import Mathlib.Data.Nat.Notation

/-! # Numerals

The numeral grammar, and the words that are read as literals.
-/

namespace Ral.Syntax

namespace Numeral

inductive Shape
  | int
  | float
deriving DecidableEq

def digits (s : List Char) : ℕ := (s.takeWhile Char.isDigit).length

def isSign (c : Option Char) : Bool := c = some '+' || c = some '-'

/-- The length of `e sign? digits` at the start of `s`, zero where there is none. -/
def exponent (s : List Char) : ℕ :=
  if s.head? = some 'e' ∨ s.head? = some 'E' then
    let sign := if isSign s[1]? then 1 else 0
    let exp := digits (s.drop (1 + sign))
    if 0 < exp then 1 + sign + exp else 0
  else 0

/-- The longest numeral prefix, its length and shape.
`Int = sign? digits` and `Float = sign? (digits . digits? | . digits) (e sign? digits)?`. -/
def longestPrefix (s : List Char) : Option (ℕ × Shape) :=
  let sign := if isSign s.head? then 1 else 0
  let int := digits (s.drop sign)
  let at' := sign + int
  if s[at']? ≠ some '.' then
    if 0 < int then some (at', .int) else none
  else
    let frac := digits (s.drop (at' + 1))
    if int + frac = 0 then none
    else
      let stop := at' + 1 + frac
      some (stop + exponent (s.drop stop), .float)

def shape (s : List Char) : Option Shape :=
  match longestPrefix s with
  | some (n, shape) => if n = s.length then some shape else none
  | none => none

/-- A numeral consumes something. -/
theorem longestPrefix_pos {s : List Char} {n : ℕ} {shape : Shape}
    (h : longestPrefix s = some (n, shape)) : 0 < n := by
  unfold longestPrefix at h
  dsimp only at h
  generalize (if isSign s.head? then 1 else 0) = sign at h
  generalize hint : digits (s.drop sign) = int at h
  by_cases hpoint : s[sign + int]? ≠ some '.'
  · rw [if_pos hpoint] at h
    by_cases hpos : 0 < int
    · rw [if_pos hpos] at h
      cases h
      omega
    · rw [if_neg hpos] at h
      cases h
  · rw [if_neg hpoint] at h
    by_cases hnone : int + digits (s.drop (sign + int + 1)) = 0
    · rw [if_pos hnone] at h
      cases h
    · rw [if_neg hnone] at h
      have hn := congrArg Prod.fst (Option.some.inj h)
      dsimp only at hn
      omega

end Numeral

/-! ## Literals -/

def decimal (s : List Char) : ℕ := s.foldl (fun n c => 10 * n + (c.toNat - '0'.toNat)) 0

def integer (s : List Char) : ℤ :=
  match s with
  | '-' :: rest => -(decimal rest : ℤ)
  | '+' :: rest => decimal rest
  | rest => decimal rest

/-- From here on a value rounds to no finite double. -/
def doubleLimit : ℕ := 2 ^ 1024 - 2 ^ 970

/-- Whether a string of shape `Float` writes a value a double can hold. -/
def isFinite (s : List Char) : Bool :=
  let s := if Numeral.isSign s.head? then s.drop 1 else s
  let mantissa := s.takeWhile fun c => c ≠ 'e' ∧ c ≠ 'E'
  let exponent := integer (s.drop (mantissa.length + 1))
  let frac := ((mantissa.dropWhile (· ≠ '.')).drop 1).length
  let digits := decimal (mantissa.filter (· ≠ '.'))
  let scale := exponent - frac
  if 0 ≤ scale then digits * 10 ^ scale.toNat < doubleLimit
  else digits < doubleLimit * 10 ^ (-scale).toNat

inductive WordLiteral
  | bool (b : Bool)
  | int (n : ℤ)
  | float (text : String)
deriving DecidableEq

def WordLiteral.classify (s : List Char) : Option WordLiteral :=
  if s = "true".toList then some (.bool true)
  else if s = "false".toList then some (.bool false)
  else match Numeral.shape s with
    | none => none
    | some .int =>
      let n := integer s
      if -2 ^ 63 ≤ n ∧ n < 2 ^ 63 then some (.int n) else none
    | some .float => if isFinite s then some (.float (String.ofList s)) else none

end Ral.Syntax
