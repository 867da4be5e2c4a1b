import Ral.Core.Run
import Ral.Core.Text

/-! # Tokens

What a source text lexes to, and how lexing fails.
-/

namespace Ral.Syntax

/-- Byte offsets into the source. -/
structure Span where
  start : ℕ
  stop : ℕ
deriving DecidableEq

def Span.point (at' : ℕ) : Span := ⟨at', at'⟩

/-! ## Operators -/

inductive WriteMode
  | write
  | append
  | stream
deriving DecidableEq

inductive ArithOp
  | add
  | sub
  | mul
  | div
  | mod
deriving DecidableEq

inductive CompareOp
  | lt
  | gt
  | le
  | ge
deriving DecidableEq

inductive EqOp
  | eq
  | ne
deriving DecidableEq

inductive BinaryOp
  | arith (op : ArithOp)
  | compare (op : CompareOp)
  | eq (op : EqOp)
deriving DecidableEq

/-- An operator inside `$[…]`. -/
inductive Operator
  | binary (op : BinaryOp)
  | and
  | or
  | assign
deriving DecidableEq

inductive RedirectOp
  | read
  | hereString
  | stdout (mode : WriteMode)
  | stderr (mode : WriteMode)
deriving DecidableEq

/-! ## Words -/

inductive PathRules
  | posix
  | windows
deriving DecidableEq

def PathRules.isSeparator (rules : PathRules) (c : Char) : Bool :=
  c = '/' || (rules = .windows && c = '\\')

/-- `~` or `~/sub`, the suffix with the separator it was written with. -/
structure TildePath where
  suffix : Option String
deriving DecidableEq

/-- `~` or `~/rest`; `none` for any other spelling. -/
def TildePath.parse (rules : PathRules) : List Char → Option TildePath
  | ['~'] => some ⟨none⟩
  | '~' :: c :: rest => if rules.isSeparator c then some ⟨some (String.ofList (c :: rest))⟩ else none
  | _ => none

def namesAPath (rules : PathRules) (name : List Char) : Bool := name.any rules.isSeparator

/-- An unquoted word. -/
inductive Word
  | plain (text : String)
  | path (text : String)
  | tilde (path : TildePath)
deriving DecidableEq

/-! ## Tokens -/

mutual

inductive StringPart
  | literal (text : String)
  | splice (tokens : List Lexeme)

inductive Lexeme
  | mk (token : Token) (span : Span)

inductive Token
  | word (word : Word)
  | singleQuoted (text : String)
  | doubleQuoted (parts : List (Span × StringPart))
  | caret
  | pipe
  | question
  | colon
  | lBrace
  | rBrace
  | lBracket
  | rBracket
  | lParen
  | rParen
  | comma
  | spread
  | tag (label : String)
  | variable (name : String) (delimited : Bool)
  | expr (body : List Lexeme)
  | bang
  | op (op : Operator)
  | newline
  | semi
  | redirect (op : RedirectOp)
  | stderrToStdout
  | eof

end

namespace Lexeme

def token : Lexeme → Token
  | .mk token _ => token

def span : Lexeme → Span
  | .mk _ span => span

end Lexeme

def Token.isEof : Token → Bool
  | .eof => true
  | _ => false

/-! ## Errors -/

inductive StringForm
  | singleQuoted (hashes : ℕ)
  | doubleQuoted
deriving DecidableEq

inductive LexErrorKind
  /-- A string not closed before the end of the source. -/
  | unterminatedString (form : StringForm) (opened : Span) (inner : Option LexErrorKind)
  | unterminatedBalanced (opener close : Char) (opened : Span)
  | unclosedDeref (opened : Span)
  | mismatched (opener : Char) (opened : Span) (close : Char)
  | openerInRaw (level : ℕ) (opened : Span)
  | other (message : String)

/-- The source may still be going on. -/
def LexErrorKind.isIncomplete : LexErrorKind → Bool
  | .unterminatedString _ _ _ => true
  | .unterminatedBalanced _ _ _ => true
  | .unclosedDeref _ => true
  | .mismatched _ _ _ => false
  | .openerInRaw _ _ => false
  | .other _ => false

structure LexError where
  kind : LexErrorKind
  span : Span

end Ral.Syntax
