import Ral.Eval.Flow

/-! # Forming values

Literals, variables, thunks and collection literals: forming a value reads the
environment and nothing else. A literal one of whose direct names only the
signature answers is built at once, its closure having no way to read it back.
-/

namespace Ral.Eval

open Ral.Ir

/-- Why a name that ends in an unbound `-…` was not found. -/
def noStatusRegister : String :=
  "there is no status register: a failure raises an error record: catch it with `try` and read " ++
    "`$e[reason]` from the handler's argument"

/-- What stands before each `-`, the longest first. -/
def hyphenPrefixes : List Char → List Char → List String
  | _, [] => []
  | before, c :: cs =>
    hyphenPrefixes (before ++ [c]) cs ++ (if c = '-' then [String.ofList before] else [])

def hyphenBoundary (name : Name) (isBound : Name → Bool) : Option Name :=
  (hyphenPrefixes [] name.toList).find? fun p => p ≠ "" ∧ isBound p

def hyphenBoundaryHint (before : Name) : String :=
  s!"`${before}` is defined, and `-` continues a name: write `$({before})` to end it there"

def undefinedVariable (name : Name) (env : Env) (sig : Signature) : Err :=
  let hint :=
    if name = "STATUS" then noStatusRegister
    else match hyphenBoundary name fun p => (lookup p env sig).isSome with
      | some p => hyphenBoundaryHint p
      | none => "check spelling, or ensure the variable is defined before this line"
  (Err.new s!"undefined variable: ${name}").withHint hint

mutual

/-- Every direct name is bound: through variant payloads and nested literals, and
never inside a thunk. -/
def literalNamesBound (env : Env) : Val → Bool
  | .protect value _ => literalNamesBound env value
  | .unit => true
  | .int _ => true
  | .float _ => true
  | .bool _ => true
  | .string _ => true
  | .thunk _ => true
  | .variable name => (env.get name).isSome
  | .variant _ payload => literalNamesBound env payload
  | .list node => itemsNamesBound env node
  | .record node => fieldsNamesBound env node
  | .map node => fieldsNamesBound env node

def itemsNamesBound (env : Env) : List Val → Bool
  | [] => true
  | v :: vs => literalNamesBound env v && itemsNamesBound env vs

def fieldsNamesBound (env : Env) : List (Name × Val) → Bool
  | [] => true
  | (_, v) :: es => literalNamesBound env v && fieldsNamesBound env es

end

mutual

/-- A miss is an undefined variable, the only error it raises. -/
def form (env : Env) (sig : Signature) : Val → Except Err Value
  | .protect value site => (form env sig value).map (Site.wrap site)
  | .unit => .ok .unit
  | .int n => .ok (.int n)
  | .float f => .ok (.float f)
  | .bool b => .ok (.bool b)
  | .string s => .ok (.string s)
  | .variable name =>
    match lookup name env sig with
    | some v => .ok v
    | none => .error (undefinedVariable name env sig)
  | .thunk body => .ok (.thunk body (env.restrict (occ body.mentions)))
  | .list node =>
    if itemsNamesBound env node then .ok (.list (.ofLiteral node env))
    else (formItems env sig node).map Value.ofItems
  | .record node =>
    if fieldsNamesBound env node then .ok (.map (.ofLiteral node env))
    else (formFields env sig node).map Value.ofFields
  | .map node =>
    if fieldsNamesBound env node then .ok (.map (.ofLiteral node env))
    else (formFields env sig node).map Value.ofFields
  | .variant label payload => (form env sig payload).map fun p => .tagged label (some p)

def formItems (env : Env) (sig : Signature) : List Val → Except Err (List Value)
  | [] => .ok []
  | v :: vs =>
    match form env sig v with
    | .error e => .error e
    | .ok x => (formItems env sig vs).map (x :: ·)

def formFields (env : Env) (sig : Signature) : List (Name × Val) → Except Err (List (Name × Value))
  | [] => .ok []
  | (k, v) :: es =>
    match form env sig v with
    | .error e => .error e
    | .ok x => (formFields env sig es).map ((k, x) :: ·)

end

def spreadTypeErr (v : Value) : Err :=
  (Err.new s!"spread requires a List, got {v.typeName}").withHint "spread (...) expands a list"

end Ral.Eval
