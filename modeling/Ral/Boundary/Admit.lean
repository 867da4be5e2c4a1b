import Ral.Boundary.Site
import Ral.Core.Asking

/-! # Admission

A door admits a value against the site of its call. The walk follows graph and value
together; each comparable variable it meets it asks the shared table to fix, and
whoever else holds the table may ask in between.
-/

namespace Ral.Boundary

open Ral.Data (I64 Finite)
open Ral.Typecheck (Head Kind Span)

/-! ## Refusals -/

inductive Why
  | uses (found expected : String) (hint : Option String)
  | noField (field : String)
  | extraField (field : String) (fields : List String)
  | shares (other : String) (otherSide side : Side)
  | «export» (found expected : String)
  deriving DecidableEq

/-- Why a value is refused, and where: a pointer into it, and the use that imposed what
it met. -/
structure Mismatch where
  pointer : String
  witness : Option Span
  why : Why
  deriving DecidableEq

/-- How a float prints. -/
class FloatText where
  text : Finite → String

inductive Step
  | key (key : String)
  | pos (index : ℕ)
  deriving DecidableEq

def pointerToken (token : String) : String := (token.replace "~" "~0").replace "/" "~1"

def pointerOf (path : List Step) : String :=
  String.join (path.map fun
    | .key key => "/" ++ pointerToken key
    | .pos index => "/" ++ toString index)

def jsonNumbers : String :=
  "JSON has one number type, and ral reads a whole number as an Int and a number with a fraction as a " ++
    "Float; `float` or `int` at the use accepts the other"

def noJsonVariants : String :=
  "a decoder produces no variants: a tag is matched only on a value the program built, or one a host " ++
    "answered"

def clip (text : String) : String :=
  if text.length ≤ 24 then text else String.ofList (text.toList.take 24) ++ "…"

def found [FloatText] : Value → String
  | .unit => "null"
  | .bool b => "a Bool (`" ++ toString b ++ "`)"
  | .int n => "a whole number (`" ++ toString n.1 ++ "`)"
  | .float x => "a number with a fraction (`" ++ FloatText.text x ++ "`)"
  | .string s => "text (`'" ++ clip s ++ "'`)"
  | .bytes _ => "bytes"
  | .list _ => "a list"
  | .map _ => "a map"
  | .variant label _ => "a variant (tag `" ++ label ++ "`)"
  | .thunk _ => "a block"
  | .native => "a block"
  | .handle => "a handle"

def headName : Head → String
  | .unit => "Unit"
  | .bool => "Bool"
  | .int => "Int"
  | .float => "Float"
  | .string => "String"
  | .bytes => "Bytes"
  | .list => "List"
  | .map => "Map"
  | .record => "Record"
  | .variant => "Variant"
  | .thunk => "Block"
  | .handle => "Handle"

def namedKinds : List (String × Kind) :=
  [("number", .NUMBER), ("comparable", .COMPARABLE), ("scalar", .SCALAR), ("sized", .SIZED), ("data", .DATA)]

def kindShown (kind : Kind) : String :=
  let named := namedKinds.find? fun k => k.2.heads = kind.heads
  let heads := match named with
    | some (name, _) => name
    | none => "\x7b" ++ "|".intercalate ((Head.all.filter kind.admits).map headName) ++ "\x7d"
  if kind.deep && !(named.any fun k => k.2.deep) then heads ++ "^d" else heads

def kindPhrase (kind : Kind) : String :=
  if kind = .NUMBER then "a number"
  else if kind = .COMPARABLE then "a number or text"
  else if kind = .SCALAR then "a number, text or a Bool"
  else if kind = .SIZED then "text, bytes, a list or a map"
  else if kind = .DATA then "data, with no block or handle in it"
  else "a value of kind `" ++ kindShown kind ++ "`"

/-- The use a position stands for; a value position is never a computation. -/
def expected : Shape → Option String
  | .unit => some "`()`"
  | .bool => some "a Bool"
  | .int => some "an Int"
  | .float => some "a Float"
  | .string => some "text"
  | .bytes => some "bytes"
  | .list _ => some "a list"
  | .map _ => some "a map"
  | .record _ => some "a record"
  | .variant _ => some "a variant"
  | .thunk _ => some "a block"
  | .handle _ _ => some "a handle"
  | .free _ kind _ => some (kindPhrase kind)
  | .ret _ _ => none
  | .func _ _ => none
  | .freeComp _ => none

def refusalHint : Shape → Value → Option String
  | .float, .int _ => some jsonNumbers
  | .int, .float _ => some jsonNumbers
  | .variant _, _ => some noJsonVariants
  | _, _ => none

/-! ## The walk -/

/-- What a walk asks of the fixings. -/
structure Ask where
  unit : UnitId
  var : ℕ
  side : Side
  pointer : String

abbrev Walk : Type := Asking Ask (Except Fixed Unit) Mismatch Unit Unit

namespace Walk

def mismatch (path : List Step) (witness : Option Span) (why : Why) : Walk :=
  Asking.fail ⟨pointerOf path, witness, why⟩

section
variable [FloatText]

def uses (path : List Step) (v : Value) (expected : String) (witness : Option Span) (hint : Option String) :
    Walk := mismatch path witness (.uses (found v) expected hint)

mutual

/-- No block or handle anywhere in a value. -/
def data (at' : Option Span) : Value → List Step → Walk
  | .thunk lambda, path => uses path (.thunk lambda) (kindPhrase .DATA) at' none
  | .native, path => uses path .native (kindPhrase .DATA) at' none
  | .handle, path => uses path .handle (kindPhrase .DATA) at' none
  | .list items, path => dataItems at' items path 0
  | .map entries, path => dataEntries at' entries path
  | .variant _ payload, path => dataPayload at' payload path
  | _, _ => pure ()

def dataItems (at' : Option Span) : List Value → List Step → ℕ → Walk
  | [], _, _ => pure ()
  | v :: vs, path, index => do
      data at' v (path ++ [.pos index])
      dataItems at' vs path (index + 1)

def dataEntries (at' : Option Span) : List (String × Value) → List Step → Walk
  | [], _ => pure ()
  | (key, v) :: es, path => do
      data at' v (path ++ [.key key])
      dataEntries at' es path

def dataPayload (at' : Option Span) : Option Value → List Step → Walk
  | none, _ => pure ()
  | some v, path => data at' v (path ++ [.key "payload"])

end

variable (site : Site)

def free (var : ℕ) (kind : Kind) (weak : Bool) (v : Value) (path : List Step) (at' : Option Span) : Walk :=
  if v.heads.any kind.admits = false then uses path v (kindPhrase kind) at' none
  else do
    if kind.deep then data at' v path
    match v.side with
    | some side =>
      if weak ∧ kind = .COMPARABLE then
        Asking.ask (fun _ => ⟨site.unit, var, side, pointerOf path⟩) fun answer s =>
          (answer.mapError fun first => ⟨pointerOf path, at', .shares first.pointer first.side side⟩, s)
    | none => pure ()

/-- A position whose node does not take the value apart. -/
def leaf (v : Value) (id : ℕ) (path : List Step) (inherited : Option Span) : Walk :=
  let node := site.node id
  let at' := node.witness.or inherited
  match node.shape, v with
  | .unit, .unit => pure ()
  | .bool, .bool _ => pure ()
  | .int, .int _ => pure ()
  | .float, .float _ => pure ()
  | .string, .string _ => pure ()
  | .bytes, .bytes _ => pure ()
  | .handle _ _, .handle => pure ()
  | .thunk _, .thunk _ => pure ()
  | .thunk _, .native => pure ()
  | .free var kind weak, v => free site var kind weak v path at'
  | shape, v =>
    match expected shape with
    | some expected => uses path v expected at' (refusalHint shape v)
    | none => Asking.stuck

def labels (fields : List (String × (ℕ → List Step → Option Span → Walk))) (path : List Step)
    (at' : Option Span) : List (String × ℕ) → Walk
  | [] => pure ()
  | (name, id) :: rest =>
    match fields.find? fun f => f.1 = name with
    | none => mismatch path at' (.noField name)
    | some f => do
        f.2 id (path ++ [.key name]) at'
        labels fields path at' rest

/-- The fields a row does not name, by its tail. -/
def extras (row : Fields) (path : List Step) (at' : Option Span) : List (String × Value) → Walk
  | [] => pure ()
  | (key, v) :: es =>
    if row.labels.any fun l => l.1 = key then extras row path at' es
    else match row.tail with
      | .closed => mismatch path at' (.extraField key (row.labels.map Prod.fst))
      | .open _ true _ => do
          data at' v (path ++ [.key key])
          extras row path at' es
      | .open _ false _ => extras row path at' es

mutual

def run : Value → ℕ → List Step → Option Span → Walk
  | .list items, id, path, inherited =>
    match (site.node id).shape with
    | .list elem => runItems items elem path ((site.node id).witness.or inherited) 0
    | _ => leaf site (.list items) id path inherited
  | .map entries, id, path, inherited =>
    let at' := (site.node id).witness.or inherited
    match (site.node id).shape with
    | .map elem => runEntries entries elem path at'
    | .record row => do
        labels (runFields entries) path at' row.labels
        extras row path at' entries
    | _ => leaf site (.map entries) id path inherited
  | .variant label payload, id, path, inherited =>
    let at' := (site.node id).witness.or inherited
    match (site.node id).shape with
    | .variant row =>
      match row.labels.find? fun l => l.1 = label with
      | some (_, id) => runPayload payload id (path ++ [.key "payload"]) at'
      | none =>
        match row.tail with
        | .open _ false _ => pure ()
        | .open _ true _ => dataPayload at' payload path
        | .closed =>
          mismatch path at' (.uses ("a variant (tag `" ++ label ++ "`)")
            ("a variant with one of the tags " ++
              ", ".intercalate (row.labels.map fun l => "`" ++ l.1 ++ "`")) none)
    | _ => leaf site (.variant label payload) id path inherited
  | v, id, path, inherited => leaf site v id path inherited

def runItems : List Value → ℕ → List Step → Option Span → ℕ → Walk
  | [], _, _, _, _ => pure ()
  | v :: vs, elem, path, at', index => do
      run v elem (path ++ [.pos index]) at'
      runItems vs elem path at' (index + 1)

def runEntries : List (String × Value) → ℕ → List Step → Option Span → Walk
  | [], _, _, _ => pure ()
  | (key, v) :: es, elem, path, at' => do
      run v elem (path ++ [.key key]) at'
      runEntries es elem path at'

def runFields : List (String × Value) → List (String × (ℕ → List Step → Option Span → Walk))
  | [] => []
  | (key, v) :: es => (key, run v) :: runFields es

def runPayload : Option Value → ℕ → List Step → Option Span → Walk
  | none, id, path, at' => leaf site .unit id path at'
  | some v, id, path, at' => run v id path at'

end

end

end Walk

def Site.admits [FloatText] (site : Site) (v : Value) : Walk := Walk.run site v site.root [] none

/-! ## Modules -/

/-- The module door's view of the exports the script uses: one scratch unifier for the
whole record, and whether an export's scheme can be the type it is used at there. -/
class Exports where
  Scheme : Type
  Scratch : Type
  exports : Site → Scratch
  fits : Scratch → String → Scheme → Option (Except (String × String) Unit) × Scratch

section
variable [Exports]

def Walk.exports (site : Site) (fields : List (String × Value)) :
    List (String × Exports.Scheme) → Exports.Scratch → Walk
  | [], _ => pure ()
  | (name, scheme) :: rest, scratch =>
    if (Value.entry name fields).any Value.isBlock then
      match Exports.fits scratch name scheme with
      | (some (.error (found, expected)), _) =>
        mismatch [.key name] (site.node site.root).witness (.export found expected)
      | (_, scratch) => exports site fields rest scratch
    else exports site fields rest scratch

def Site.admitModule [FloatText] (site : Site) (record : Value) (schemes : List (String × Exports.Scheme)) :
    Walk := do
  site.admits record
  match record with
  | .map fields => Walk.exports site fields schemes (Exports.exports site)
  | _ => pure ()

end

/-! ## Runs -/

/-- A walk that alone holds the table; a panic leaves no outcome. -/
def Walk.against (table : Fixings) :
    Calls Ask (Except Fixed Unit) Mismatch Unit Unit → Option (Except Mismatch Unit) × Fixings
  | .done r _ => (some r, table)
  | .stuck => (none, table)
  | .ask q next =>
    against (table.fix q.unit q.var q.side q.pointer).2
      (next (table.fix q.unit q.var q.side q.pointer).1)

end Ral.Boundary
