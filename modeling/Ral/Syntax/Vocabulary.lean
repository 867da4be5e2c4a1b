import Ral.Data.FOValue
import Ral.Syntax.Lexer

/-! # The parser's vocabulary

The words a keyword may not be used as, what a token may begin, and how tokens and lexer errors
are named in a message.
-/

namespace Ral.Syntax

/-! ## Words -/

def controlOperators : List String :=
  ["try", "guard", "within", "grant", "audit", "spawn", "gather"]

def flowKeywords : List String := ["if", "elsif", "else", "let", "return", "case"]

def isControlOperator (word : String) : Bool := controlOperators.contains word

def isKeyword (word : String) : Bool := isControlOperator word || flowKeywords.contains word

def isStageKeyword (word : String) : Bool :=
  ["return", "if", "case", "else", "elsif"].contains word || controlOperators.contains word

/-- The words that begin a statement of their own, which no value can be. -/
def beginsStatement (word : String) : Bool :=
  ["if", "case", "let"].contains word || controlOperators.contains word

/-- Names no binding may take. -/
def isReserved (word : String) : Bool := isKeyword word || word == "true" || word == "false"

def isIdent (s : String) : Bool :=
  match s.toList with
  | [] => false
  | ch :: rest => isIdentStart ch && rest.all isIdentCont

def isLiteral (word : String) : Bool := (WordLiteral.classify word.toList).isSome

/-- The integer mantissa of an exponent-only spelling such as `1e5`. -/
def exponentOnly (w : List Char) : Option (List Char) :=
  match Numeral.longestPrefix w with
  | some (n, .int) =>
    match w.drop n with
    | ch :: exp =>
      let digits := exp.dropWhile fun c => c = '+' ∨ c = '-'
      if (ch = 'e' ∨ ch = 'E') ∧ digits ≠ [] ∧ digits.all Char.isDigit then some (w.take n)
      else none
    | [] => none
  | _ => none

def parseUsize (s : List Char) : Option ℕ :=
  let digits := if s.head? = some '+' then s.drop 1 else s
  if digits ≠ [] ∧ digits.all Char.isDigit ∧ decimal digits < 2 ^ 64 then some (decimal digits)
  else none

/-! ## Operators -/

def ArithOp.symbol : ArithOp → String
  | .add => "+"
  | .sub => "-"
  | .mul => "*"
  | .div => "/"
  | .mod => "%"

def CompareOp.symbol : CompareOp → String
  | .lt => "<"
  | .gt => ">"
  | .le => "<="
  | .ge => ">="

def EqOp.symbol : EqOp → String
  | .eq => "=="
  | .ne => "!="

def Operator.display : Operator → String
  | .binary (.arith op) => op.symbol
  | .binary (.compare op) => op.symbol
  | .binary (.eq op) => op.symbol
  | .and => "&&"
  | .or => "||"
  | .assign => "="

/-- Binding power. `=` binds nothing: it is refused wherever it stands. -/
def precedence : Operator → ℕ
  | .assign => 0
  | .or => 1
  | .and => 2
  | .binary (.eq _) => 3
  | .binary (.compare _) => 3
  | .binary (.arith .add) => 4
  | .binary (.arith .sub) => 4
  | .binary (.arith _) => 5

/-! ## Tokens -/

def TildePath.toLiteral (path : TildePath) : String := "~" ++ path.suffix.getD ""

namespace Token

def display : Token → String
  | .word (.tilde path) => path.toLiteral
  | .word (.plain s) => s!"'{s}'"
  | .word (.path s) => s!"'{s}'"
  | .singleQuoted s => s!"'{s}'"
  | .doubleQuoted _ => "\"...\""
  | .caret => "^"
  | .pipe => "|"
  | .question => "?"
  | .colon => ":"
  | .lBrace => "\x7b"
  | .rBrace => "\x7d"
  | .lBracket => "["
  | .rBracket => "]"
  | .lParen => "("
  | .rParen => ")"
  | .comma => ","
  | .spread => "..."
  | .tag label => s!"`{label}"
  | .variable name _ => s!"${name}"
  | .expr _ => "$[...]"
  | .bang => "!"
  | .op o => o.display
  | .newline => "newline"
  | .semi => "';'"
  | .redirect _ => "redirect"
  | .stderrToStdout => "redirect"
  | .eof => "end of input"

/-- The variant. -/
def discriminant : Token → ℕ
  | .word _ => 0
  | .singleQuoted _ => 1
  | .doubleQuoted _ => 2
  | .caret => 3
  | .pipe => 4
  | .question => 5
  | .colon => 6
  | .lBrace => 7
  | .rBrace => 8
  | .lBracket => 9
  | .rBracket => 10
  | .lParen => 11
  | .rParen => 12
  | .comma => 13
  | .spread => 14
  | .tag _ => 15
  | .variable _ _ => 16
  | .expr _ => 17
  | .bang => 18
  | .op _ => 19
  | .newline => 20
  | .semi => 21
  | .redirect _ => 22
  | .stderrToStdout => 23
  | .eof => 24

/-- One variant. The parser compares only with tokens that carry nothing, where this is
equality. -/
def is (token other : Token) : Bool := token.discriminant = other.discriminant

def asPlainWord : Token → Option String
  | .word (.plain w) => some w
  | _ => none

def isAtomStart : Token → Bool
  | .word _ | .singleQuoted _ | .doubleQuoted _ | .variable _ _ | .expr _ | .bang | .tag _
  | .lBrace | .lBracket | .lParen | .spread => true
  | _ => false

def isRedirect : Token → Bool
  | .redirect _ | .stderrToStdout => true
  | _ => false

/-- What may follow a command's first word: an argument, or what hands its result on. -/
def continuesCommand (token : Token) : Bool :=
  token.isAtomStart || token.is .pipe || token.is .question || token.isRedirect

end Token

/-! ## Lexer errors -/

def StringForm.closing : StringForm → String
  | .singleQuoted n => "'" ++ String.ofList (List.replicate n '#')
  | .doubleQuoted => "\""

def StringForm.display : StringForm → String
  | .singleQuoted 0 => "single-quoted string"
  | .singleQuoted _ => "bumped single-quoted string"
  | .doubleQuoted => "double-quoted string"

namespace LexErrorKind

/-- This kind's own line, with no nested culprit. -/
def headline : LexErrorKind → String
  | .unterminatedString form _ _ =>
    "unterminated " ++ form.display ++ ": expected closing `" ++ form.closing ++ "`"
  | .unterminatedBalanced opener close _ =>
    "unterminated `" ++ String.singleton opener ++ "…" ++ String.singleton close ++ "`"
  | .unclosedDeref _ => "unclosed `$(…)` dereference"
  | .mismatched opener _ close =>
    "mismatched `" ++ String.singleton close ++ "`: the innermost open delimiter is `" ++
      String.singleton opener ++ "`"
  | .openerInRaw level _ =>
    let hashes := String.ofList (List.replicate level '#')
    s!"`{hashes}'` inside a raw string opened with `{hashes}'`: " ++
      s!"close that string with `'{hashes}` first, or write it with one more `#` " ++
      s!"on each side if `{hashes}'` is text"
  | .other s => s

/-- One line: the headline, then the nested one it hides. -/
def message : LexErrorKind → String
  | .unterminatedString form opened (some inner) =>
    headline (.unterminatedString form opened (some inner)) ++ "; nested " ++ message inner
  | kind => headline kind

end LexErrorKind

end Ral.Syntax
