import Mathlib
import Ral.Syntax.Lexer

/-! # The fields of a cron

A field is a comma list of stars, values, ranges and steps over them, read into a mask of the
values it allows.
-/

namespace Ral.Schedule
open Ral.Syntax (isWhitespace)

/-! ## Text -/

/-- Less the whitespace at either end. -/
def trim (s : List Char) : List Char :=
  ((s.dropWhile isWhitespace).reverse.dropWhile isWhitespace).reverse

def splitOnce (sep : Char) : List Char → Option (List Char × List Char)
  | [] => none
  | c :: rest => if c = sep then some ([], rest) else (splitOnce sep rest).map fun (a, b) => (c :: a, b)

def decimal (digits : List Char) : Option ℕ :=
  if digits ≠ [] ∧ (∀ c ∈ digits, c.isDigit = true) ∧ Nat.ofDigitChars 10 digits 0 ≤ 255 then
    some (Nat.ofDigitChars 10 digits 0)
  else none

def parseU8 : List Char → Option ℕ
  | '+' :: digits => decimal digits
  | digits => decimal digits

/-! ## Fields -/

/-- What a field's values range over, and the names some go by. -/
structure Field where
  min : ℕ
  max : ℕ
  names : List (List Char × ℕ)
  ordered : min ≤ max
  narrow : max < 64
  alphabetic : ∀ n ∈ names, n.1 ≠ [] ∧ ∀ c ∈ n.1, c.isLower = true
  distinct : (names.map Prod.fst).Nodup

def months : List (List Char × ℕ) :=
  [(['j', 'a', 'n'], 1), (['f', 'e', 'b'], 2), (['m', 'a', 'r'], 3), (['a', 'p', 'r'], 4), (['m', 'a', 'y'], 5),
    (['j', 'u', 'n'], 6), (['j', 'u', 'l'], 7), (['a', 'u', 'g'], 8), (['s', 'e', 'p'], 9), (['o', 'c', 't'], 10),
    (['n', 'o', 'v'], 11), (['d', 'e', 'c'], 12)]

/-- Sunday is zero. -/
def weekdays : List (List Char × ℕ) :=
  [(['s', 'u', 'n'], 0), (['m', 'o', 'n'], 1), (['t', 'u', 'e'], 2), (['w', 'e', 'd'], 3), (['t', 'h', 'u'], 4),
    (['f', 'r', 'i'], 5), (['s', 'a', 't'], 6)]

namespace Field

def minute : Field := ⟨0, 59, [], by decide, by decide, by simp, by simp⟩
def hour : Field := ⟨0, 23, [], by decide, by decide, by simp, by simp⟩
def dom : Field := ⟨1, 31, [], by decide, by decide, by simp, by simp⟩
def month : Field := ⟨1, 12, months, by decide, by decide, by simp [months, Char.isLower], by decide⟩

/-- Seven is a second spelling of Sunday. -/
def dow : Field := ⟨0, 7, weekdays, by decide, by decide, by simp [weekdays, Char.isLower], by decide⟩

end Field

/-! ## Parsing -/

/-- What a trimmed atom says, in the field or not. -/
def valueOf (f : Field) (tok : List Char) : Except String ℕ :=
  match parseU8 tok with
  | some n => .ok n
  | none =>
    match f.names.find? fun n => n.1 = tok.map Char.toLower with
    | some n => .ok n.2
    | none => .error ("unrecognised cron value `" ++ String.ofList tok ++ "`")

def resolve (f : Field) (tok : List Char) : Except String ℕ := do
  let tok := trim tok
  let v ← valueOf f tok
  if v < f.min ∨ f.max < v then
    .error ("cron value `" ++ String.ofList tok ++ "` out of range " ++ toString f.min ++ "..=" ++ toString f.max)
  else .ok v

def stepOf (spec part : List Char) : Except String (List Char × ℕ) :=
  match splitOnce '/' part with
  | some (range, s) =>
    match parseU8 s with
    | none => .error ("invalid step `" ++ String.ofList s ++ "` in cron field `" ++ String.ofList spec ++ "`")
    | some step =>
      if step = 0 then .error ("cron step cannot be zero in `" ++ String.ofList spec ++ "`")
      else .ok (range, step)
  | none => .ok (part, 1)

/-- The values a range runs between. A value with a step runs to the field's last. -/
def boundsOf (f : Field) (part range : List Char) : Except String (ℕ × ℕ) :=
  if range = ['*'] then .ok (f.min, f.max)
  else
    match splitOnce '-' range with
    | some (a, b) => do
        let lo ← resolve f a
        let hi ← resolve f b
        return (lo, hi)
    | none => do
        let v ← resolve f range
        return if '/' ∈ part then (v, f.max) else (v, v)

def marks (hi step : ℕ) : ℕ → ℕ → BitVec 64 → BitVec 64
  | 0, _, mask => mask
  | passes + 1, v, mask =>
    let mask := mask ||| 1#64 <<< v
    if v + step ≤ 255 ∧ v + step ≤ hi then marks hi step passes (v + step) mask else mask

def parsePart (f : Field) (spec : List Char) (mask : BitVec 64) (part : List Char) : Except String (BitVec 64) := do
  let (range, step) ← stepOf spec part
  let (lo, hi) ← boundsOf f part range
  if hi < lo then
    .error ("cron range `" ++ String.ofList range ++ "` is descending in `" ++ String.ofList spec ++ "`")
  else .ok (marks hi step (hi - lo + 1) lo mask)

def parseField (f : Field) (spec : List Char) : Except String (BitVec 64) :=
  let spec := trim spec
  if spec = [] then .error "empty cron field"
  else (spec.splitOn ',').foldlM (parsePart f spec) 0

end Ral.Schedule
