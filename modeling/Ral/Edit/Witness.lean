import Ral.Boundary.Value
import Ral.Core.Classes
import Ral.Syntax.Lexer

/-! # Line witnesses

A witness names a line of a text by the hashes of the lines around it, as many as tell it from every
other line; and by its index where not enough do.
-/

namespace Ral.Edit
open Ral.Syntax (isWhitespace)

section

/-- The first hex digits of a text's digest. -/
class Digest where
  hex : List Char → List Char
  digits : ∀ text, ∀ c ∈ hex text, c.isDigit ∨ c ∈ ['a', 'b', 'c', 'd', 'e', 'f']

def trimEnd (line : List Char) : List Char := (line.reverse.dropWhile isWhitespace).reverse

/-- How a number is written. -/
def digits (n : ℕ) : List Char := Nat.toDigits 10 n

variable [Digest]

def lineHash (line : List Char) : List Char := 'h' :: Digest.hex (trimEnd line)

/-- Every witness folds in this much context each side, so an edit nearby stales it. -/
def minRadius : ℕ := 5

/-- The cap on a window's growth. -/
def maxRadius : ℕ := 64

/-- How a line is told from every other: by a window, or inside a long run by its index. -/
inductive Witness
  | window (radius : ℕ)
  | index
deriving DecidableEq

section Window
variable (lh : List (List Char)) (i r : ℕ)

def lo : ℕ := i - r

/-- Where it closes. -/
def hi : ℕ := min (i + r + 1) lh.length

def window : List (List Char) := (lh.take (hi lh i r)).drop (lo i r)

def signature : List Char := digits (i - lo i r) ++ ':' :: (window lh i r).flatten

end Window

/-! ## Partition refinement -/

/-- A class of one is named by the radius it was told apart at. At the cap the rest are named by
index. -/
def settle (r : ℕ) (how : List Witness) (lines : List ℕ) : List Witness :=
  match lines with
  | [i] => how.set i (.window r)
  | lines => if maxRadius ≤ r then lines.foldl (fun how i => how.set i .index) how else how

def collides (lines : List ℕ) : Bool := lines.length ≠ 1

/-- Rounds at the radii from `maxRadius - left` to the cap. -/
def refine (lh : List (List Char)) : ℕ → List (List ℕ) → List Witness → List Witness
  | 0, classes, how => classes.foldl (settle maxRadius) how
  | left + 1, classes, how =>
    let r := maxRadius - (left + 1)
    let next := (classes.filter collides).flatMap (group fun i => signature lh i (r + 1))
    refine lh left next (classes.foldl (settle r) how)

def named (lh : List (List Char)) : List Witness :=
  let all := List.range lh.length
  refine lh (maxRadius - minRadius) (group (fun i => signature lh i minRadius) all)
    (List.replicate lh.length .index)

/-- What a witness hashes. The radius is folded in, so witnesses of different radii differ. -/
def body (lh : List (List Char)) (i : ℕ) : Witness → List Char
  | .window r => digits r ++ ':' :: (digits (i - lo i r) ++ ':' :: (window lh i r).flatten)
  | .index => ['i', 'd', 'x', ':'] ++ digits i

/-- A witness for every line. -/
def windowHashes (rows : List (List Char)) : List (List Char) :=
  let lh := rows.map lineHash
  (named lh).mapIdx fun i how => lineHash (body lh i how)

end

/-! ## Viewing and editing by witness

`view-hash` shows each line of a file with its witness; `edit-hash` takes witnesses against the file
as it then reads, and writes nothing unless each names one line and no two the same.
-/

open Ral.Boundary (Value)

/-! ## Texts -/

/-- A text file's line ending: `crlf` only when every `\n` follows a `\r`. -/
inductive Eol
  | lf
  | crlf
deriving DecidableEq

structure EolScan where
  lf : Bool
  bareLf : Bool
  last : Option UInt8

def EolScan.feed (scan : EolScan) (b : UInt8) : EolScan :=
  let newline := b = 10
  { lf := scan.lf || newline
    bareLf := scan.bareLf || newline && scan.last ≠ some 13
    last := some b }

namespace Eol

def of (bytes : List UInt8) : Eol :=
  let scan := bytes.foldl EolScan.feed ⟨false, false, none⟩
  if scan.lf && !scan.bareLf then .crlf else .lf

/-- `\r\n` read as `\n`. -/
def dropReturns : List Char → List Char
  | '\r' :: '\n' :: text => '\n' :: dropReturns text
  | c :: text => c :: dropReturns text
  | [] => []

def decode : Eol → List Char → List Char
  | .lf, body => body
  | .crlf, body => dropReturns body

def encode : Eol → List Char → List Char
  | .lf, text => text
  | .crlf, text => text.flatMap fun c => if c = '\n' then ['\r', '\n'] else [c]

end Eol

def rowsOf (body : List Char) : List (List Char) := body.splitOn '\n'

/-- What locating and reading a file came to. -/
inductive Opened
  | refused (why : String)
  | absent
  | unreadable (why : String)
  | bytes (bytes : List UInt8)

def readTextFile (path tool : String) : Opened → Except String (Eol × List Char)
  | .refused why => .error why
  | .absent => .error (tool ++ ": " ++ path ++ " does not exist; " ++ tool ++
      " never creates a file; `to-string BODY > path` writes a new one.")
  | .unreadable why => .error (tool ++ ": cannot read " ++ path ++ ": " ++ why)
  | .bytes bytes =>
    match String.fromUTF8? ⟨bytes.toArray⟩ with
    | none => .error (tool ++ ": '" ++ path ++ "' is not valid UTF-8; these tools read and edit text only.")
    | some body => .ok (Eol.of bytes, (Eol.of bytes).decode body.toList)

/-! ## Arguments -/

def typeName : Value → String
  | .unit => "Unit"
  | .bool _ => "Bool"
  | .int _ => "Int"
  | .float _ => "Float"
  | .string _ => "String"
  | .bytes _ => "Bytes"
  | .list _ => "List"
  | .map _ => "Map"
  | .variant _ _ => "Variant"
  | .thunk true => "Lambda"
  | .thunk false => "Block"
  | .native => "Native"
  | .handle => "Handle"

def asStr (ctx : String) : Value → Except String String
  | .string s => .ok s
  | v => .error (ctx ++ ": expected String, got " ++ typeName v)

def viewBound (which tool : String) (arg : Value) : Except String ℕ :=
  let refused := tool ++ ": " ++ which ++ " must be an Int >= 1, got " ++ typeName arg
  match arg with
  | .int n => if 1 ≤ n.1 then .ok n.1.toNat else .error refused
  | _ => .error refused

/-! ## `view-hash` -/

variable [Digest]

/-- The lines of a file and the half-open slice of them asked for, clamped to the file. -/
def viewRange (path start stop : Value) (tool : String) (files : String → Opened) :
    Except String (List (List Char) × ℕ × ℕ) := do
  let path ← asStr tool path
  let first ← viewBound "start" tool start
  let last ← viewBound "end" tool stop
  if last ≤ first then
    .error (tool ++ ": end must be greater than start (the range [start, end) is half-open), got start=" ++
      toString first ++ ", end=" ++ toString last)
  else
    let (_, body) ← readTextFile path tool (files path)
    let rows := rowsOf body
    .ok (rows, first - 1, min (last - 1) rows.length)

/-- A line as `view-hash` shows it, its number from one. -/
structure Viewed where
  line : ℕ
  hash : List Char
  text : List Char

def viewHash (path start stop : Value) (files : String → Opened) : Except String (List Viewed) := do
  let (rows, first, last) ← viewRange path start stop "view-hash" files
  let shown := (rows.zip (windowHashes rows)).zipIdx
  .ok (((shown.take last).drop first).map fun row => ⟨row.2 + 1, row.1.2, row.1.1⟩)

/-! ## `edit-hash` -/

/-- A hash resolved against the file as read: the line it names. -/
structure ResolvedEdit where
  line : ℕ
  new : List Char

def matching (hashes : List (List Char)) (want : String) : List ℕ :=
  (List.range hashes.length).filter fun i => hashes[i]? = some want.toList

def textField (m : List (String × Value)) (key missing : String) : Except String String :=
  match m.lookup key with
  | some v => asStr "edit-hash" v
  | none => .error missing

def resolve (path : String) (hashes : List (List Char)) (e : Value) : Except String ResolvedEdit :=
  match e with
  | .map m => do
      let want ← textField m "hash"
        "edit-hash: each edit needs a `hash` field; the witness from view-hash/view-hash-around."
      let new ← textField m "line" "edit-hash: each edit needs a `line` field; the replacement text."
      match matching hashes want with
      | [] => .error ("edit-hash: no line in " ++ path ++ " hashes to " ++ want ++
          "; did the file change? Re-read with view-hash/view-hash-around before editing.")
      | [line] => .ok ⟨line, new.toList⟩
      | lines => .error ("edit-hash: hash " ++ want ++ " matches lines " ++
          ", ".intercalate (lines.map fun i => toString (i + 1)) ++ " in " ++ path ++
          "; re-read; the witness has gone stale.")
  | other => .error ("edit-hash: each edit must be a [hash: …, line: …] record, got " ++ typeName other)

def doubled : List ResolvedEdit → Option ℕ
  | [] => none
  | r :: rest => if rest.any fun other => other.line = r.line then some r.line else doubled rest

/-- The rows with their edits: an empty replacement drops the line, a newline in one splits it. -/
def rebuild (rows : List (List Char)) (resolved : List ResolvedEdit) : List (List Char) :=
  rows.zipIdx.flatMap fun row =>
    match resolved.find? fun r => r.line = row.2 with
    | none => [row.1]
    | some r => if r.new = [] then [] else rowsOf r.new

/-- What an edit resolved to, the text before and after, what it writes and what it says on stderr. -/
structure Edited where
  resolved : List ResolvedEdit
  old : List Char
  new : List Char
  written : List Char
  note : String

def noteEdit (path : String) (resolved : List ResolvedEdit) : String :=
  let lines := (resolved.map fun r => r.line + 1).mergeSort
  let word := if 1 < lines.length then "lines" else "line"
  "[EXARCH] Replaced " ++ word ++ " " ++ ", ".intercalate (lines.map toString) ++ " of " ++ path ++ ".\n"

def editHash (path edits : Value) (files : String → Opened) : Except String Edited := do
  let path ← asStr "edit-hash" path
  match edits with
  | .list [] => .error "edit-hash: no edits given; pass a list of [hash: …, line: …] records."
  | .list edits =>
    let (eol, body) ← readTextFile path "edit-hash" (files path)
    let rows := rowsOf body
    let resolved ← edits.mapM (resolve path (windowHashes rows))
    match doubled resolved with
    | some line =>
      .error ("edit-hash: two edits name line " ++ toString (line + 1) ++ " in " ++ path ++ ".")
    | none =>
      let final := ['\n'].intercalate (rebuild rows resolved)
      .ok ⟨resolved, body, final, eol.encode final, noteEdit path resolved⟩
  | other => .error ("edit-hash: expected a List of [hash: …, line: …] records, got " ++ typeName other)

end Ral.Edit
