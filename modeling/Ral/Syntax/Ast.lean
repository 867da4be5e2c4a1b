import Ral.Ir.Term
import Ral.Syntax.Token

/-! # The syntax tree

The parser's output, shaped exactly like the surface syntax. Spans never sit on a tree itself:
they ride the `Stmt` wrapper at every statement position and the inner `Spanned` nodes a form
carries.
-/

namespace Ral.Syntax
open Ir (Pattern Redirects)

/-- The parser gives every node a span, so that it is no option here. -/
structure Spanned (α : Type) where
  span : Span
  item : α

/-! ## Forms over a tree -/

/-- An index key, by how it is written. -/
inductive IndexKey (α : Type)
  | label (label : String)
  | position (n : ℕ)
  | data (tree : α)

/-- A command head. -/
inductive Head (α : Type)
  | bare (name : String)
  | externalName (name : String)
  | path (path : String)
  | tildePath (path : TildePath)
  | value (tree : α)

inductive ListElem (α : Type)
  | single (item : Spanned α)
  | spread (list : Spanned α)

/-- No variant can carry a computed key. -/
inductive RecordEntry (α : Type)
  | field (key : Spanned String) (value : Spanned α)
  | spread (record : Spanned α)

inductive MapEntry (α : Type)
  | entry (key value : Spanned α)
  | spread (map : Spanned α)

/-- A literal tag and the computation to run when the scrutinee carries it. -/
structure CaseArm (α : Type) where
  tag : Spanned String
  body : Spanned α

structure IfBranch (α : Type) where
  cond : Spanned α
  body : Spanned α

abbrev Options (α : Type) : Type := List (String × Spanned α)

structure HandlerArm (α : Type) where
  name : String
  value : Spanned α

/-- Operand shape of a control operator, one variant for each keyword. -/
inductive ScopeAst (α : Type)
  | try' (body handler : α)
  | guard (body cleanup : α)
  | within (opts : List (String × Spanned α)) (handlers : Option (List (HandlerArm α))) (body : α)
  | grant (caps : List (String × Spanned α)) (body : α)
  | audit (body : α)
  | spawn (title : Option (Spanned α)) (body : α)
  | gather (body : α)

/-! ## Trees -/

inductive Ast
  | word (word : Word)
  | literal (text : String)
  | variable (name : String)
  | let' (pattern : Spanned Pattern) (value : Spanned Ast)
  | return' (value : Option (Spanned Ast))
  | call (head : Spanned (Head Ast)) (args : List (Spanned Ast))
  | redirected (stage : Spanned Ast) (redirects : Redirects Ast)
  | scope (form : ScopeAst Ast)
  | pipeline (stages : List (Spanned Ast))
  | chain (arms : List (Spanned Ast))
  | block (body : List (Spanned Ast))
  /-- Always exactly one parameter; the parser curries the rest into nested lambdas. -/
  | lambda (param : Spanned Pattern) (body : List (Spanned Ast))
  | unit
  | list (elems : List (ListElem Ast))
  | record (entries : List (RecordEntry Ast))
  | map (entries : List (MapEntry Ast))
  | interpolation (segments : List (Spanned Ast))
  | tag (label : String) (payload : Option (Spanned Ast))
  | case (scrutinee : Spanned Ast) (arms : List (CaseArm Ast))
  | binary (left : Spanned Ast) (op : BinaryOp) (right : Spanned Ast)
  | negate (operand : Spanned Ast)
  | not (operand : Spanned Ast)
  | and (left right : Spanned Ast)
  | or (left right : Spanned Ast)
  | index (target : Spanned Ast) (keys : List (Spanned (IndexKey Ast)))
  | force (operand : Spanned Ast)
  | spread (operand : Spanned Ast)
  | if' (branches : List (IfBranch Ast)) (else' : Option (Spanned Ast))

/-- One statement of a sequence. -/
abbrev Stmt : Type := Spanned Ast

end Ral.Syntax
