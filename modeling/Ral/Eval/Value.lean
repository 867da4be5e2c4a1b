import Ral.Ir.Term
import Ral.Data.SortedMap

/-! # Runtime values

A plain list, record or map literal is kept as syntax over the environment it
was formed in, cut down to what the node mentions, and read one layer at a time.
A thunk is its code over such an environment.
-/

namespace Ral.Eval

open Ral.Ir

mutual

inductive Value
  | unit
  | bool (b : Bool)
  | int (n : Int)
  | float (f : Finite)
  | string (s : String)
  | bytes (bs : List UInt8)
  | list (items : ListRepr)
  | map (fields : MapRepr)
  | variant (label : Name) (payload : Option Value)
  | thunk (comp : Comp) (env : List (Name × Value))
  | native (entry : BuiltinEntry)
  | handle (id : ℕ) (protections : List Site)

inductive ListRepr
  | built (items : List Value)
  | literal (node : List Val) (env : List (Name × Value))

inductive MapRepr
  | built (entries : List (Name × Value))
  | literal (node : List (Name × Val)) (env : List (Name × Value))

end

/-! ## Environments -/

abbrev Env := List (Name × Value)

def Env.get (name : Name) (env : Env) : Option Value := (env.find? fun e => e.1 = name).map Prod.snd

def Env.bind (name : Name) (v : Value) (env : Env) : Env := SortedMap.insertEntry name v env

/-- The bindings of these names; the environment itself where it drops nothing. -/
def Env.restrict (occ : List Name) (env : Env) : Env :=
  if env.length ≤ occ.length ∧ ∀ e ∈ env, e.1 ∈ occ then env
  else occ.filterMap fun n => (env.get n).map fun v => (n, v)

/-- Natives and the frozen prelude. -/
structure Signature where
  natives : List (Name × Value)
  prelude : List (Name × Value)

def Signature.get (name : Name) (sig : Signature) : Option Value :=
  (Env.get name sig.prelude).or (Env.get name sig.natives)

/-- The environment, then the prelude, then the natives. -/
def lookup (name : Name) (env : Env) (sig : Signature) : Option Value :=
  (env.get name).or (sig.get name)

/-! ## Construction -/

def Value.ofItems (items : List Value) : Value := .list (.built items)

def ofPairs (pairs : List (Name × Value)) : List (Name × Value) :=
  pairs.foldl (fun m e => SortedMap.insertEntry e.1 e.2 m) []

def Value.ofFields (pairs : List (Name × Value)) : Value := .map (.built (ofPairs pairs))

/-- `unit` is an absent payload. -/
def Value.tagged (label : Name) : Option Value → Value
  | some .unit => .variant label none
  | payload => .variant label payload

def Value.typeName : Value → String
  | .unit => "Unit"
  | .bool _ => "Bool"
  | .int _ => "Int"
  | .float _ => "Float"
  | .string _ => "String"
  | .bytes _ => "Bytes"
  | .list _ => "List"
  | .map _ => "Map"
  | .variant _ _ => "Variant"
  | .thunk comp _ => if comp.isLam then "Lambda" else "Block"
  | .native _ => "Native"
  | .handle _ _ => "Handle"

/-! ## The membrane

`wrap` installs a site's obligations without inspecting delayed results. Sites
come innermost first, so reading a literal and wrapping what is read is one walk
of its syntax. -/

def Site.listElem (s : Site) : Option Site :=
  match s.shape with
  | .list elem => some (s.project elem)
  | _ => none

def Site.entry (key : Name) (s : Site) : Option Site :=
  match s.shape with
  | .map elem => some (s.project elem)
  | .record labels _ => (labels.find? fun l => l.1 = key).map fun l => s.project l.2
  | _ => none

def Site.rebuilds (s : Site) : Bool :=
  match s.shape with
  | .map _ => true
  | .record _ _ => true
  | _ => false

def Site.payload (label : Name) (s : Site) : Option Site :=
  match s.shape with
  | .variant labels _ => (labels.find? fun l => l.1 = label).map fun l => s.project l.2
  | _ => none

def Site.handlePayload (s : Site) : Option Site :=
  match s.shape with
  | .handle _ payload => some (s.project payload)
  | _ => none

/-- The code that holds a thunk to the contract at a node: a result is checked as
it returns, an argument before it is passed on. -/
def membrane (site : Site) : CompKind :=
  let force : Comp := .synthetic (.force (.variable (synthetic "membrane" 0)))
  match site.shape with
  | .result _ result => .protect force (site.project result)
  | .fn arg rest =>
    let param := synthetic "membrane" 1
    let checked := synthetic "membrane" 2
    let call := Val.thunk (.synthetic (.app force [.variable checked]))
    .lam param (.synthetic (.bind
      (.synthetic (.protect (.synthetic (.ret (.variable param))) (site.project arg)))
      (.name checked)
      (.synthetic (.force (.protect call (site.project rest))))))
  | _ => .ret .unit

def Site.wrapThunk (site : Site) (raw : Value) : Value :=
  match site.shape with
  | .freeComp => raw
  | _ => .thunk (.synthetic (membrane site)) (Env.bind (synthetic "membrane" 0) raw [])

def Site.wrapSuspended (raw : Value) (site : Site) : Value :=
  match site.shape, raw with
  | .thunk body, .thunk _ _ => Site.wrapThunk (site.project body) raw
  | .thunk body, .native _ => Site.wrapThunk (site.project body) raw
  | .fn _ _, .thunk _ _ => Site.wrapThunk site raw
  | .result _ _, .thunk _ _ => Site.wrapThunk site raw
  | _, _ => raw

abbrev Wrapped := List (Name × (List Site → Value))

/-- A missing name is `unit`: the arm no literal reaches, its names being bound
when it was formed. -/
def Wrapped.get (name : Name) (look : Wrapped) (sites : List Site) : Value :=
  match (look.find? fun e => e.1 = name).map Prod.snd with
  | some f => f sites
  | none => .unit

mutual

def inspectAt (env : Env) (look : Wrapped) : Val → List Site → Value
  | .protect v site, sites => inspectAt env look v (site :: sites)
  | .unit, _ => .unit
  | .int n, _ => .int n
  | .float f, _ => .float f
  | .bool b, _ => .bool b
  | .string s, _ => .string s
  | .variable name, sites => look.get name sites
  | .thunk body, sites => sites.foldl Site.wrapSuspended (.thunk body env)
  | .list node, sites =>
    let inner := sites.filterMap Site.listElem
    if inner.isEmpty then .list (.literal node env) else .ofItems (inspectItems env look node inner)
  | .record node, sites =>
    if sites.any Site.rebuilds then .ofFields (inspectFields env look node sites)
    else .map (.literal node env)
  | .map node, sites =>
    if sites.any Site.rebuilds then .ofFields (inspectFields env look node sites)
    else .map (.literal node env)
  | .variant label payload, sites =>
    .tagged label (some (inspectAt env look payload (sites.filterMap (Site.payload label))))

def inspectItems (env : Env) (look : Wrapped) : List Val → List Site → List Value
  | [], _ => []
  | v :: vs, sites => inspectAt env look v sites :: inspectItems env look vs sites

def inspectFields (env : Env) (look : Wrapped) : List (Name × Val) → List Site → List (Name × Value)
  | [], _ => []
  | (k, v) :: es, sites =>
    (k, inspectAt env look v (sites.filterMap (Site.entry k))) :: inspectFields env look es sites

end

mutual

def Value.wrapAll : Value → List Site → Value
  | .unit, _ => .unit
  | .bool b, _ => .bool b
  | .int n, _ => .int n
  | .float f, _ => .float f
  | .string s, _ => .string s
  | .bytes bs, _ => .bytes bs
  | .list items, sites => .list (items.wrapAll (sites.filterMap Site.listElem))
  | .map fields, sites => .map (fields.wrapAll sites)
  | .variant label payload, sites =>
    .variant label (wrapPayload payload (sites.filterMap (Site.payload label)))
  | .thunk comp env, sites => sites.foldl Site.wrapSuspended (.thunk comp env)
  | .native entry, sites => sites.foldl Site.wrapSuspended (.native entry)
  | .handle id protections, sites => .handle id (protections ++ sites.filterMap Site.handlePayload)

def wrapPayload : Option Value → List Site → Option Value
  | none, _ => none
  | some v, sites => some (v.wrapAll sites)

def ListRepr.wrapAll : ListRepr → List Site → ListRepr
  | .built items, sites => .built (wrapItems items sites)
  | .literal node env, sites =>
    if sites.isEmpty then .literal node env
    else .built (inspectItems env (wrapTable env) node sites)

def MapRepr.wrapAll : MapRepr → List Site → MapRepr
  | .built entries, sites => .built (wrapEntries entries sites)
  | .literal node env, sites =>
    if sites.any Site.rebuilds then .built (ofPairs (inspectFields env (wrapTable env) node sites))
    else .literal node env

def wrapItems : List Value → List Site → List Value
  | [], _ => []
  | v :: vs, sites => v.wrapAll sites :: wrapItems vs sites

def wrapEntries : List (Name × Value) → List Site → List (Name × Value)
  | [], _ => []
  | (k, v) :: es, sites => (k, v.wrapAll (sites.filterMap (Site.entry k))) :: wrapEntries es sites

def wrapTable : List (Name × Value) → Wrapped
  | [] => []
  | (n, v) :: es => (n, fun sites => v.wrapAll sites) :: wrapTable es

end

def Site.wrap (site : Site) (v : Value) : Value := v.wrapAll [site]

/-! ## Reading -/

def inspect (v : Val) (env : Env) : Value := inspectAt env (wrapTable env) v []

namespace ListRepr

def ofLiteral (node : List Val) (env : Env) : ListRepr :=
  .literal node (env.restrict (occ (itemsMention node)))

/-- Its elements, in order. -/
def iter : ListRepr → List Value
  | .built items => items
  | .literal node env => node.map fun e => inspect e env

def materialized : ListRepr → List Value
  | .built items => items
  | .literal node env => node.map fun e => inspect e env

def pushBack (v : Value) (l : ListRepr) : ListRepr := .built (l.materialized ++ [v])

def pushFront (v : Value) (l : ListRepr) : ListRepr := .built (v :: l.materialized)

def append (l other : ListRepr) : ListRepr := .built (l.materialized ++ other.materialized)

end ListRepr

namespace MapRepr

def ofLiteral (node : List (Name × Val)) (env : Env) : MapRepr :=
  .literal node (env.restrict (occ (fieldsMention node)))

/-- Its entries, by key. -/
def iter : MapRepr → List (Name × Value)
  | .built entries => entries
  | .literal node env => node.map fun e => (e.1, inspect e.2 env)

def containsKey (key : Name) : MapRepr → Bool
  | .built entries => (Env.get key entries).isSome
  | .literal node _ => node.any fun e => e.1 = key

def materialized : MapRepr → List (Name × Value)
  | .built entries => entries
  | .literal node env => ofPairs (node.map fun e => (e.1, inspect e.2 env))

def insert (key : Name) (v : Value) (m : MapRepr) : MapRepr :=
  .built (SortedMap.insertEntry key v m.materialized)

end MapRepr

end Ral.Eval
