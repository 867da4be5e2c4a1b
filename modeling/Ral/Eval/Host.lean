import Ral.Eval.State

/-! # Collections

The evaluator's rules for lists, maps and record updates. The runtime's own code says how a value is shown.
-/

namespace Ral.Eval

open Ral.Ir

/-- The runtime's own code. -/
class Host where
  shown : Value → String

variable [Host]

def duplicateKey (key : String) : Err := .new s!"map literal: key '{key}' given twice; which did you mean?"

def formMap (v : Val) (env : Env) (sig : Signature) : Except Err MapRepr :=
  match form env sig v with
  | .error e => .error e
  | .ok (.map m) => .ok m
  | .ok other => .error ((Err.new s!"spread requires a Map, got {other.typeName}").withHint
      "spread (...) in a map expands key-value pairs")

def listRule (env : Env) (sig : Signature) : List ValListElem → ListRepr → Except Err ListRepr
  | [], items => .ok items
  | .single v :: rest, items =>
    match form env sig v with
    | .error e => .error e
    | .ok x => listRule env sig rest (items.pushBack x)
  | .spread v :: rest, items =>
    match form env sig v with
    | .error e => .error e
    | .ok (.list inner) => listRule env sig rest (items.append inner)
    | .ok other => .error (spreadTypeErr other)

def evalList (elems : List ValListElem) (env : Env) (sig : Signature) : Except Err Value :=
  match elems with
  | [.single x, .spread xs] => do
      let x ← form env sig x
      match ← form env sig xs with
      | .list items => return .list (items.pushFront x)
      | other => throw (spreadTypeErr other)
  | [.spread xs, .single x] => do
      let xs ← form env sig xs
      let x ← form env sig x
      match xs with
      | .list items => return .list (items.pushBack x)
      | other => throw (spreadTypeErr other)
  | elems => (listRule env sig elems (.built [])).map .list

def updateFields (env : Env) (sig : Signature) :
    List (Name × Val) → List Name → Except Err (List (Name × Value))
  | [], _ => .ok []
  | (k, v) :: rest, seen =>
    if k ∈ seen then .error (duplicateKey k)
    else
      match form env sig v with
      | .error e => .error e
      | .ok x => (updateFields env sig rest (k :: seen)).map ((k, x) :: ·)

/-- What the base adds: its keys not written out, each once. -/
def baseFields : List (Name × Value) → List Name → List (Name × Value)
  | [], _ => []
  | (k, v) :: rest, seen =>
    if k ∈ seen then baseFields rest seen else (k, v) :: baseFields rest (k :: seen)

def evalUpdate (base : Val) (fields : List (Name × Val)) (env : Env) (sig : Signature) :
    Except Err Value := do
  let pairs ← updateFields env sig fields []
  let m ← formMap base env sig
  return .ofFields (pairs ++ baseFields m.iter (fields.map Prod.fst))

def spreadInto : List (Name × Value) → MapRepr → MapRepr
  | [], m => m
  | (k, v) :: rest, m => spreadInto rest (if m.containsKey k then m else m.insert k v)

/-- Explicit entries before spreads; a key written twice is refused. -/
def mapRule (env : Env) (sig : Signature) :
    List MapEntryV → List Name → MapRepr → Except Err MapRepr
  | [], _, m => .ok m
  | .entry key value :: rest, seen, m =>
    match form env sig key with
    | .error e => .error e
    | .ok (.string label) =>
      if label ∈ seen then .error (duplicateKey label)
      else
        match form env sig value with
        | .error e => .error e
        | .ok v => mapRule env sig rest (label :: seen) (m.insert label v)
    | .ok other => .error
        ((Err.new s!"map key must be a String, got {other.typeName} '{Host.shown other}'").withHint
          "use str to convert")
  | .spread v :: rest, seen, m =>
    match formMap v env sig with
    | .error e => .error e
    | .ok inner => mapRule env sig rest seen (spreadInto inner.iter m)

end Ral.Eval
