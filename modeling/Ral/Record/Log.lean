import Mathlib.Data.Nat.Digits.Defs
import Ral.Core.Lines

/-! # The record log

The handle on `record.jsonl`, one sealed commit a line: appending, measuring the
undamaged part, reading back in order, quarantining a torn tail, and reading one
record at its locus. The JSON encoding and the hash are parameters.
-/

namespace Ral.Record
open Ral.Lines

abbrev Bytes : Type := List UInt8

/-- The line terminator. -/
def newline : UInt8 := 10

/-! ## Sums -/

/-- The first 64 bits of a commit's blake3. -/
abbrev Sum : Type := {n : ℕ // n < 2 ^ 64}

namespace Sum

theorem zero_lt : 0 < 2 ^ 64 := by decide

def ofBytes (hash : Bytes) : Sum :=
  ⟨(hash.take 8).foldl (fun n b => n * 256 + b.toNat) 0 % 2 ^ 64, Nat.mod_lt _ (by decide)⟩

def hexDigits : ℕ → ℕ → List Char
  | 0, _ => []
  | k + 1, n => hexDigits k (n / 16) ++ [Nat.digitChar (n % 16)]

def toText (s : Sum) : String := String.ofList (hexDigits 16 s.1)

def hexValue (c : Char) : ℕ :=
  if '0' ≤ c ∧ c ≤ '9' then c.toNat - '0'.toNat else c.toNat - 'a'.toNat + 10

def isHex (c : Char) : Bool := decide (('0' ≤ c ∧ c ≤ '9') ∨ ('a' ≤ c ∧ c ≤ 'f'))

def fromHex (digits : List Char) : ℕ := digits.foldl (fun n c => n * 16 + hexValue c) 0

/-- Sixteen lowercase hex digits. -/
def parse (text : String) : Option Sum :=
  if text.toList.length ≠ 16 ∨ ¬ text.toList.all isHex then none
  else if h : fromHex text.toList < 2 ^ 64 then some ⟨fromHex text.toList, h⟩
  else none

end Sum

/-! ## Records in their places -/

/-- At least one, in order. -/
structure NonEmpty (R : Type) where
  first : R
  rest : List R
deriving DecidableEq

namespace NonEmpty
variable {R : Type}

def toList (records : NonEmpty R) : List R := records.first :: records.rest

end NonEmpty

/-- A record's commit, counted from 1, and its index there. -/
structure Seq where
  commit : ℕ
  index : ℕ
deriving DecidableEq

structure Range where
  start : ℕ
  stop : ℕ
deriving DecidableEq

/-- A record's place, and the byte range and sum of its line. -/
structure Locus where
  seq : Seq
  bytes : Range
  sum : Sum
deriving DecidableEq

structure Recorded (R : Type) where
  locus : Locus
  value : R

/-- One line of the log. -/
structure Commit (R : Type) where
  records : NonEmpty (Recorded R)

namespace Commit
variable {R : Type}

def new (number : ℕ) (bytes : Range) (sum : Sum) (records : NonEmpty R) : Commit R :=
  let locus index : Locus := ⟨⟨number, index⟩, bytes, sum⟩
  ⟨⟨⟨locus 0, records.first⟩,
    records.rest.zipIdx.map fun x => ⟨locus (x.2 + 1), x.1⟩⟩⟩

def number (c : Commit R) : ℕ := c.records.first.locus.seq.commit

def bytes (c : Commit R) : Range := c.records.first.locus.bytes

def holds (c : Commit R) (locus : Locus) : Bool :=
  let own := c.records.first.locus
  own.seq.commit == locus.seq.commit && own.bytes == locus.bytes && own.sum == locus.sum

end Commit

/-! ## Lines -/

/-- What a line's `commit` holds. -/
structure Body (R : Type) where
  atUnixMs : ℕ
  records : NonEmpty R
deriving DecidableEq

/-- The classes of the JSON reader's errors. -/
inductive Category
  | io
  | malformed
  | data
  | eof

structure JsonError where
  category : Category
  why : String

/-- The JSON layer at the log's two shapes. A line is read at any reading of its seal. -/
structure Json (R : Type) where
  toBody : Body R → Except String Bytes
  toLine : String → Bytes → Except String Bytes
  readBody : Bytes → Except JsonError (Body R)
  readLine : {S : Type} → (String → Option S) → Bytes → Except JsonError (S × Bytes)
  readAny : Bytes → Except JsonError Unit

/-- Why a complete line yields no commit. -/
inductive Unsealed
  | notJson (why : JsonError)
  | shape (why : JsonError)
  | sum (sealed : String) (actual : Sum)
  | records (why : JsonError)

/-- Whether a torn write could have left the line, rather than another writer. -/
def Unsealed.damaged : Unsealed → Bool
  | .notJson _ | .sum _ _ => true
  | .shape _ | .records _ => false

section Lines
variable {R : Type} (json : Json R) (blake3 : Bytes → Bytes)

def sumOf (bytes : Bytes) : Sum := Sum.ofBytes (blake3 bytes)

def sealLine (body : Body R) : Except String (Sum × Bytes) := do
  let commit ← json.toBody body
  let sum := sumOf blake3 commit
  let line ← json.toLine sum.toText commit
  .ok (sum, line)

/-- Why `line` reads as no sealed line: damage unless it is JSON of another shape. -/
def unreadable (line : Bytes) (error : JsonError) : Unsealed :=
  match error.category with
  | .malformed | .eof | .io => .notJson error
  | .data =>
    match json.readAny line with
    | .error why => .notJson why
    | .ok () =>
      match json.readLine some line with
      | .ok (sealed, commit) => .sum sealed (sumOf blake3 commit)
      | .error _ => .shape error

def unsealLine (line : Bytes) : Except Unsealed (Sum × Bytes) :=
  match json.readLine Sum.parse line with
  | .error error => .error (unreadable json blake3 line error)
  | .ok (sum, commit) =>
    let actual := sumOf blake3 commit
    if actual = sum then .ok (sum, commit) else .error (.sum sum.toText actual)

def recordsOf (commit : Bytes) : Except Unsealed (NonEmpty R) :=
  match json.readBody commit with
  | .ok body => .ok body.records
  | .error why => .error (.records why)

def commitOf (sum : Sum) (body : Bytes) (number : ℕ) (bytes : Range) :
    Except Unsealed (Commit R) := do
  let records ← recordsOf json body
  .ok (Commit.new number bytes sum records)

end Lines

/-! ## The log -/

/-- What the writer's lock guards: the last commit's number and the committed end,
and the first failure, which ends all appending. -/
structure Log where
  commits : ℕ
  pos : ℕ
  failure : Option String

/-- A read-back line that yields no commit, by its number. -/
structure LineError where
  number : ℕ
  fault : Unsealed

section Log
variable {R : Type} (json : Json R) (blake3 : Bytes → Bytes)

def write (file line : Bytes) : Option ℕ → Bytes × Bool
  | none => (file ++ line, true)
  | some remaining => (file ++ line.take remaining, decide (line.length ≤ remaining))

def Log.append (log : Log) (file : Bytes) (atUnixMs : ℕ) (records : NonEmpty R) (room : Option ℕ) :
    Log × Bytes × Except String (Commit R) :=
  match log.failure with
  | some failure => (log, file, .error failure)
  | none =>
    match sealLine json blake3 ⟨atUnixMs, records⟩ with
    | .error why => ({ log with failure := some why }, file, .error why)
    | .ok (sum, line) =>
      let line := line ++ [newline]
      let start := log.pos
      match write file line room with
      | (file, false) =>
        let why := "recording failed"
        ({ log with failure := some why }, file, .error why)
      | (file, true) =>
        let pos := start + line.length
        let commits := log.commits + 1
        ({ log with commits, pos }, file, .ok (Commit.new commits ⟨start, pos⟩ sum records))

/-- The end of the lines before the first unterminated or damaged one. -/
def completeFrom : ℕ → List Bytes → ℕ
  | pos, [] => pos
  | pos, line :: lines =>
    if line.getLast? ≠ some newline then pos
    else
      match unsealLine json blake3 line.dropLast with
      | .error fault =>
        if fault.damaged then pos else completeFrom (pos + line.length) lines
      | .ok _ => completeFrom (pos + line.length) lines

def completeWithin (file : Bytes) (len : ℕ) : ℕ :=
  completeFrom json blake3 0 (pieces newline (file.take len))

/-- The prefix before the first damaged line; every later byte is torn. -/
def completeLen (file : Bytes) : ℕ := completeWithin json blake3 file file.length

def commitsFrom : ℕ → ℕ → List Bytes → List (Except LineError (Commit R))
  | _, _, [] => []
  | number, pos, line :: lines =>
    let start := pos
    let pos := pos + line.length + 1
    let number := number + 1
    let commit :=
      match unsealLine json blake3 line with
      | .error fault => .error ⟨number, fault⟩
      | .ok (sum, body) =>
        match commitOf json sum body number ⟨start, pos⟩ with
        | .error fault => .error ⟨number, fault⟩
        | .ok commit => .ok commit
    commit :: commitsFrom number pos lines

def commits (file : Bytes) (number pos stop : ℕ) : List (Except LineError (Commit R)) :=
  commitsFrom json blake3 number pos (split newline ((file.drop pos).take (stop - pos)))

def flatten (commits : List (Except LineError (Commit R))) : List (Except LineError (Recorded R)) :=
  commits.flatMap fun
    | .ok commit => commit.records.toList.map .ok
    | .error error => [.error error]

/-- Every record of `file` in file order; a torn tail is never parsed. -/
def read (file : Bytes) : List (Except LineError (Recorded R)) :=
  let stop := completeLen json blake3 file
  flatten (commits json blake3 file 0 0 stop)

/-- The number of commits on `file` and its length, refused unless it ends at a whole commit. -/
def extent (file : Bytes) : Except String (ℕ × ℕ) :=
  let len := file.length
  let complete := completeWithin json blake3 file len
  if complete < len then
    .error ("bytes " ++ toString complete ++ ".." ++ toString len ++ " are a torn tail")
  else .ok ((pieces newline (file.take len)).length, len)

/-- Reopen a record for append, numbering on from the lines already on disk. -/
def Log.appendTo (file : Bytes) : Except String Log := do
  let (commits, pos) ← extent json blake3 file
  .ok ⟨commits, pos, none⟩

def quarantineTail (file sidecar : Bytes) : Bytes × Bytes :=
  let complete := completeLen json blake3 file
  let tail := file.drop complete
  if tail = [] then (file, sidecar) else (file.take complete, sidecar ++ tail)

end Log

/-! ## Reading at a locus -/

inductive LocusError
  /-- The line did not hash to the locus that named it. -/
  | stale (number : ℕ)
  | records (number : ℕ) (fault : Unsealed)
  | fewer (index number : ℕ)

def okOr {ε α : Type} : Option α → ε → Except ε α
  | some a, _ => .ok a
  | none, why => .error why

/-- Records read back by locus, the line last read kept. -/
structure LocusReader (R : Type) where
  line : Option (Commit R)

namespace LocusReader
variable {R : Type} (json : Json R) (blake3 : Bytes → Bytes)

def new : LocusReader R := ⟨none⟩

/-- The line `locus` lies on, read, sum-checked and only then parsed. -/
def lineAt (file : Bytes) (locus : Locus) : Except LocusError (Commit R) :=
  let number := locus.seq.commit
  let buf := (file.drop locus.bytes.start).take (locus.bytes.stop - locus.bytes.start)
  if buf.getLast? = some newline then
    match unsealLine json blake3 buf.dropLast with
    | .ok (sum, body) =>
      if sum = locus.sum then
        match commitOf json sum body number locus.bytes with
        | .ok commit => .ok commit
        | .error fault => .error (.records number fault)
      else .error (.stale number)
    | .error _ => .error (.stale number)
  else .error (.stale number)

def record (reader : LocusReader R) (file : Bytes) (locus : Locus) :
    LocusReader R × Except LocusError R :=
  let line : Except LocusError (Commit R) :=
    match reader.line with
    | some line => if line.holds locus then .ok line else lineAt json blake3 file locus
    | none => lineAt json blake3 file locus
  match line with
  | .error error => (⟨none⟩, .error error)
  | .ok line =>
    (⟨some line⟩, okOr (line.records.toList[locus.seq.index]?.map (·.value))
      (.fewer locus.seq.index locus.seq.commit))

end LocusReader

end Ral.Record
