import Ral.Syntax.Numeral
import Ral.Syntax.Token

/-! # Lexer

Source text to tokens. The innermost open delimiter sets the lexical mode, and what nests, the
body of `$[…]` and every splice inside `"…"`, is lexed in place.
-/

namespace Ral.Syntax
open Text (Cursor)

/-! ## Characters -/

def isIdentStart (ch : Char) : Bool := ch.isAlpha || ch = '_'

def isIdentCont (ch : Char) : Bool := ch.isAlphanum || ch = '_' || ch = '-'

def isAsciiControl (ch : Char) : Bool := ch.toNat < 32 || ch.toNat = 127

def continuesBareWord (ch : Char) : Bool :=
  !(isAsciiControl ch || ch ∈ [' ', '|', '{', '}', '[', ']', '$', '^', '!', '<', '>', '"', '\'',
    '`', '(', ')', ';'])

def bidiControlName (ch : Char) : Option String :=
  if ch.toNat = 0x202A then some "left-to-right embedding"
  else if ch.toNat = 0x202B then some "right-to-left embedding"
  else if ch.toNat = 0x202C then some "pop directional formatting"
  else if ch.toNat = 0x202D then some "left-to-right override"
  else if ch.toNat = 0x202E then some "right-to-left override"
  else if ch.toNat = 0x2066 then some "left-to-right isolate"
  else if ch.toNat = 0x2067 then some "right-to-left isolate"
  else if ch.toNat = 0x2068 then some "first strong isolate"
  else if ch.toNat = 0x2069 then some "pop directional isolate"
  else none

def isBidiControl (ch : Char) : Bool := (bidiControlName ch).isSome

def isWhitespace (ch : Char) : Bool :=
  let n := ch.toNat
  (0x9 ≤ n && n ≤ 0xD) || n = 0x20 || n = 0x85 || n = 0xA0 || n = 0x1680 ||
    (0x2000 ≤ n && n ≤ 0x200A) || n = 0x2028 || n = 0x2029 || n = 0x202F || n = 0x205F || n = 0x3000

def isHexDigit (ch : Char) : Bool :=
  ch.isDigit || ('a' ≤ ch && ch ≤ 'f') || ('A' ≤ ch && ch ≤ 'F')

def hexValue (ch : Char) : ℕ :=
  if ch.isDigit then ch.toNat - '0'.toNat
  else if 'a' ≤ ch then ch.toNat - 'a'.toNat + 10
  else ch.toNat - 'A'.toNat + 10

def hexNumber (digits : List Char) : ℕ := digits.foldl (fun n ch => 16 * n + hexValue ch) 0

def upperHex (width n : ℕ) : List Char :=
  let digits := (Nat.toDigits 16 n).map Char.toUpper
  List.replicate (width - digits.length) '0' ++ digits

def operatorPrefix : List Char → Option (Operator × ℕ)
  | '&' :: '&' :: _ => some (.and, 2)
  | '|' :: '|' :: _ => some (.or, 2)
  | '=' :: '=' :: _ => some (.binary (.eq .eq), 2)
  | '!' :: '=' :: _ => some (.binary (.eq .ne), 2)
  | '<' :: '=' :: _ => some (.binary (.compare .le), 2)
  | '>' :: '=' :: _ => some (.binary (.compare .ge), 2)
  | '<' :: _ => some (.binary (.compare .lt), 1)
  | '>' :: _ => some (.binary (.compare .gt), 1)
  | '+' :: _ => some (.binary (.arith .add), 1)
  | '-' :: _ => some (.binary (.arith .sub), 1)
  | '*' :: _ => some (.binary (.arith .mul), 1)
  | '/' :: _ => some (.binary (.arith .div), 1)
  | '%' :: _ => some (.binary (.arith .mod), 1)
  | '=' :: _ => some (.assign, 1)
  | _ => none

/-! ## The lexer -/

inductive DelimKind
  | brace
  | bracket
  | expr
deriving DecidableEq

namespace DelimKind

def opener : DelimKind → Char
  | .brace => '{'
  | .bracket => '['
  | .expr => '['

def close : DelimKind → Char
  | .brace => '}'
  | .bracket => ']'
  | .expr => ']'

def left : DelimKind → Token
  | .brace => .lBrace
  | .bracket => .lBracket
  | .expr => .lBracket

def right : DelimKind → Token
  | .brace => .rBrace
  | .bracket => .rBracket
  | .expr => .rBracket

end DelimKind

structure OpenDelim where
  kind : DelimKind
  opened : Span
deriving DecidableEq

/-- Whether strings and groups may be open where the source ends. -/
inductive EofPolicy
  | requireClosed
  | allowOpen
deriving DecidableEq

/-- `delims` are the open delimiters, innermost first. -/
structure Lexer where
  cursor : Cursor
  unclosedString : Option Span
  delims : List OpenDelim
deriving DecidableEq

abbrev Lex : Type → Type := Run LexError Lexer

namespace Lexer

def new (source : List Char) : Lexer := ⟨⟨[], source⟩, none, []⟩

/-- The unscanned source. -/
def rest (l : Lexer) : List Char := l.cursor.after

def pos (l : Lexer) : ℕ := l.cursor.pos

def span (l : Lexer) : Span := .point l.pos

def finish (l : Lexer) (start : Span) : Span := ⟨start.start, l.pos⟩

def peek (l : Lexer) : Option Char := l.rest.head?

def advance (n : ℕ) (l : Lexer) : Lexer := { l with cursor := l.cursor.advance n }

def innermost (l : Lexer) : Option DelimKind := l.delims.head?.map OpenDelim.kind

def suppressNewline (l : Lexer) : Bool :=
  l.innermost = some .bracket || l.innermost = some .expr

def inExpr (l : Lexer) : Bool := l.innermost = some .expr

end Lexer

/-! ## Whitespace and words -/

def hashRun (text : List Char) : ℕ := (text.takeWhile (· = '#')).length

def hashOpensQuoted (text : List Char) : Bool := text[hashRun text]? = some '\''

/-- How far whitespace and comments reach, up to a significant newline; `comment` is whether a
comment is open. -/
def inlineWhitespace (suppress : Bool) : Bool → List Char → ℕ
  | _, [] => 0
  | comment, ch :: rest =>
    if comment && ch ≠ '\n' then 1 + inlineWhitespace suppress true rest
    else if ch = ' ' ∨ ch = '\t' ∨ ch = '\r' then 1 + inlineWhitespace suppress false rest
    else if ch = '\n' ∧ suppress then 1 + inlineWhitespace suppress false rest
    else if ch = '#' ∧ !hashOpensQuoted (ch :: rest) then 1 + inlineWhitespace suppress true rest
    else 0

def Lexer.skipInlineWhitespace (l : Lexer) : Lexer :=
  l.advance (inlineWhitespace l.suppressNewline false l.rest)

def colonSplits (rest : List Char) : Bool :=
  rest.head?.all fun next => next ∈ [' ', '\t', '\r', '\n', ']', '}', ')', ',']

def bareFragment (inExpr suppress : Bool) : List Char → ℕ
  | [] => 0
  | ch :: rest =>
    if !continuesBareWord ch then 0
    else if ch = ',' ∧ suppress then 0
    else if inExpr ∧ ((operatorPrefix (ch :: rest)).isSome ∨ ch = '&') then 0
    else if ch = ':' ∧ colonSplits rest then 0
    else 1 + bareFragment inExpr suppress rest

def Lexer.bareFragment (l : Lexer) : ℕ := Syntax.bareFragment l.inExpr l.suppressNewline l.rest

def Word.shape (rules : PathRules) (word : List Char) : Word :=
  match TildePath.parse rules word with
  | some home => .tilde home
  | none =>
    if namesAPath rules word then .path (String.ofList word) else .plain (String.ofList word)

def isFdRedirectStart (text : List Char) : Bool :=
  text[(text.takeWhile Char.isDigit).length]? = some '>' ||
    text[(text.takeWhile Char.isDigit).length]? = some '<'

def identPrefix (text : List Char) : List Char :=
  if text.head?.any isIdentStart then text.takeWhile isIdentCont else []

/-- An identifier without its trailing `-`. -/
def derefIdent (text : List Char) : List Char :=
  ((identPrefix text).reverse.dropWhile (· = '-')).reverse

/-! ## Which token begins here -/

/-- The case of `next_token` that applies. -/
inductive Arm
  | eof
  | op (op : Operator) (width : ℕ)
  | hashQuoted
  | separator
  | opener (kind : DelimKind)
  | closer (kind : DelimKind)
  | simple (token : Token)
  | ampersand
  | dollar
  | quoted
  | doubleQuoted
  | redirectGt
  | redirectLt
  | fdRedirect
  | spread
  | tag
  | numeral (len : ℕ)
  | bare
  | control (ch : Char)

/-- The cases in their order. -/
def arm (inExpr suppress : Bool) : List Char → Arm
  | [] => .eof
  | ch :: rest =>
    match (if inExpr then operatorPrefix (ch :: rest) else none) with
    | some (op, width) => .op op width
    | none =>
      if ch = '#' ∧ hashOpensQuoted (ch :: rest) then .hashQuoted
      else if ch = '\n' ∨ ch = ';' then .separator
      else if ch = '{' then .opener .brace
      else if ch = '}' then .closer .brace
      else if ch = '[' then .opener .bracket
      else if ch = ']' then .closer .bracket
      else if ch = '(' then .simple .lParen
      else if ch = ')' then .simple .rParen
      else if ch = '|' then .simple .pipe
      else if ch = '&' then .ampersand
      else if ch = ',' ∧ suppress then .simple .comma
      else if ch = '$' then .dollar
      else if ch = '^' then .simple .caret
      else if ch = '!' then .simple .bang
      else if ch = '?' then .simple .question
      else if ch = '\'' then .quoted
      else if ch = '"' then .doubleQuoted
      else if ch = '>' then .redirectGt
      else if ch = '<' then .redirectLt
      else if !inExpr ∧ ch.isDigit ∧ isFdRedirectStart (ch :: rest) then .fdRedirect
      else if ch = '.' ∧ rest.take 2 = ['.', '.'] then .spread
      else if ch = '`' then .tag
      else
        match (if inExpr then Numeral.longestPrefix (ch :: rest) else none) with
        | some (len, _) => .numeral len
        | none => if continuesBareWord ch then .bare else .control ch

/-! ## Scanning -/

namespace Lex

def error {α : Type} (span : Span) (message : String) : Lex α := Run.fail ⟨.other message, span⟩

def advance (n : ℕ) : Lex Unit := Run.modify (Lexer.advance n)

def bumpSpanned : Lex Span := Run.act fun l => ((l.advance 1).finish l.span, l.advance 1)

def eat (ch : Char) : Lex Bool := Run.act fun l =>
  if l.peek = some ch then (true, l.advance 1) else (false, l)

def take (n : ℕ) : Lex (List Char) := Run.act fun l => (l.rest.take n, l.advance n)

def bumpSimple (token : Token) : Lex Token := do
  advance 1
  pure token

section Policy
variable (eof : EofPolicy)

def eofOrUnterminated : Lex Token := do
  let l ← Run.get
  match eof, l.delims with
  | .requireClosed, delim :: _ =>
    Run.fail ⟨.unterminatedBalanced delim.kind.opener delim.kind.close delim.opened, delim.opened⟩
  | _, _ => pure .eof

def errUnterminatedString (span : Span) (form : StringForm) (inner : Option LexErrorKind) :
    LexError :=
  ⟨.unterminatedString form span inner, span⟩

def unclosedString (opened : Span) (form : StringForm) : Lex Unit :=
  match eof with
  | .requireClosed => Run.fail (errUnterminatedString opened form none)
  | .allowOpen => Run.modify fun l => { l with unclosedString := some (l.finish opened) }

/-! ### Delimiters and separators -/

def openDelim (kind : DelimKind) : Lex Token := do
  let opened ← bumpSpanned
  Run.modify fun l => { l with delims := ⟨kind, opened⟩ :: l.delims }
  pure kind.left

def closeDelim (kind : DelimKind) : Lex Token := do
  let span ← bumpSpanned
  let l ← Run.get
  match l.delims with
  | [] => pure kind.right
  | delim :: delims =>
    if delim.kind.close = kind.close then
      Run.modify fun l => { l with delims := delims }
      pure kind.right
    else Run.fail ⟨.mismatched delim.kind.opener delim.opened kind.close, span⟩

def separatorLoop : ℕ → Bool → Lex Bool
  | 0, _ => Run.stuck
  | fuel + 1, hard => do
    Run.modify Lexer.skipInlineWhitespace
    let l ← Run.get
    if l.peek = some ';' then
      advance 1
      separatorLoop fuel true
    else if l.peek = some '\n' then
      advance 1
      separatorLoop fuel hard
    else pure hard

/-- A maximal run of newlines, semicolons, whitespace and comments. -/
def scanSeparator : Lex Token := do
  let l ← Run.get
  advance 1
  let hard ← separatorLoop l.rest.length (l.peek = some ';')
  pure (if hard then .semi else .newline)

/-! ### Words -/

def scanBareWord (rules : PathRules) : Lex Token := do
  let l ← Run.get
  if l.peek = some ':' ∧ colonSplits l.rest.tail then bumpSimple .colon
  else
    let word ← take l.bareFragment
    pure (.word (Word.shape rules word))

def scanNumeralWord (len : ℕ) : Lex Token := do
  let numeral ← take len
  let l ← Run.get
  let glued ← take l.bareFragment
  pure (.word (.plain (String.ofList (numeral ++ glued))))

def scanTag (span : Span) : Lex Token := do
  advance 1
  let l ← Run.get
  let label ← take (identPrefix l.rest).length
  let l ← Run.get
  if label = [] then
    error (l.finish span) ("expected a tag label after the backtick, as in `` `ok ``: " ++
      "a backtick never runs a command here; write `!\x7bcmd\x7d` for that")
  else pure (.tag (String.ofList label))

/-! ### Raw strings -/

/-- How a raw string goes on from its opening quote. -/
inductive RawEnd
  | closed (body : List Char)
  | opener (body : List Char)
  | unclosed (body : List Char)

def hashes (level : ℕ) (text : List Char) : ℕ := hashRun (text.take level)

/-- The body up to the closing fence; `seen` is what has been read of it, nearest first. A closer
takes precedence. -/
def rawBody (level : ℕ) : List Char → List Char → RawEnd
  | seen, [] => .unclosed seen.reverse
  | seen, ch :: rest =>
    if ch = '\'' then
      if hashes level rest = level then .closed seen.reverse
      else if hashes level seen = level then .opener seen.reverse
      else rawBody level (ch :: seen) rest
    else rawBody level (ch :: seen) rest

/-- The hashes are consumed, the opening quote is not. -/
def scanQuoted (span : Span) (level : ℕ) : Lex Token := do
  advance 1
  let l ← Run.get
  let opened := l.finish span
  match rawBody level [] l.rest with
  | .closed body =>
    advance (body.length + 1 + level)
    pure (.singleQuoted (String.ofList body))
  | .opener body =>
    let quote := l.pos + Text.size body
    Run.fail ⟨.openerInRaw level opened, ⟨quote - level, quote + 1⟩⟩
  | .unclosed body =>
    advance body.length
    unclosedString eof opened (.singleQuoted level)
    pure (.singleQuoted (String.ofList body))

/-! ### Escapes -/

def takeHex (max : ℕ) : Lex (List Char) := do
  let l ← Run.get
  take ((l.rest.take max).takeWhile isHexDigit).length

def scanHexEscape (escape : Span) : Lex (Option Char) := do
  let digits ← takeHex 2
  let l ← Run.get
  if digits.length ≠ 2 then error (l.finish escape) "\\x escape needs two hex digits"
  else if 128 ≤ hexNumber digits then
    error (l.finish escape) ("\\xNN is limited to \\x00 through \\x7F; write non-ASCII " ++
      "characters directly or as \\u" ++ "\x7b…\x7d")
  else pure (some (Char.ofNat (hexNumber digits)))

def scanUnicodeEscape (escape : Span) : Lex (Option Char) := do
  let opened ← eat '{'
  let l ← Run.get
  if !opened then error (l.finish escape) ("\\u escape is written \\u" ++ "\x7b…\x7d")
  else
    let digits ← takeHex 6
    let closed ← (if digits = [] then pure false else eat '}')
    let l ← Run.get
    if !closed then
      error (l.finish escape) ("\\u" ++ "\x7b…\x7d takes one to six hex digits")
    else if (hexNumber digits).isValidChar then pure (some (Char.ofNat (hexNumber digits)))
    else
      error (l.finish escape)
        ("\\u" ++ "\x7b" ++ String.ofList digits ++ "\x7d is not a Unicode scalar")

/-- The character an escape stands for after its backslash; a line continuation stands for
none. -/
def scanDoubleQuotedEscape (escape opened : Span) : Lex (Option Char) := do
  let l ← Run.get
  match l.rest with
  | [] =>
    unclosedString eof opened .doubleQuoted
    pure none
  | ch :: _ =>
    advance 1
    let l ← Run.get
    if ch = 'n' then pure (some '\n')
    else if ch = 'r' then pure (some '\r')
    else if ch = 't' then pure (some '\t')
    else if ch = '0' then pure (some '\x00')
    else if ch = 'e' then pure (some '\x1b')
    else if ch ∈ ['\\', '"', '$', '!', '~'] then pure (some ch)
    else if ch = '\n' then pure none
    else if ch = '\r' then
      let _ ← eat '\n'
      pure none
    else if ch = 'x' then scanHexEscape escape
    else if ch = 'u' then scanUnicodeEscape escape
    else if ch = '\'' then
      error (l.finish escape)
        "`'` needs no escape inside a double-quoted string: write it directly"
    else
      error (l.finish escape)
        ("unknown escape `\\" ++ String.singleton ch ++ "` in double-quoted string")

end Policy

/-! ### Redirects -/

def stdinUnwritable : String :=
  "standard input cannot be written to: did you mean `< file`, which reads one into it?"

def noHeredocs : String :=
  "ral has no heredocs: `<<` feeds a string to stdin. " ++
    "Use a raw string: `cmd << #' ... '#`, which may use newlines"

/-- Anything but `2>` is refused. -/
def fdRefusal (digits : List Char) : String :=
  if 1 < digits.length ∧ digits.head? = some '0' then
    "file-descriptor spelling `" ++ String.ofList digits ++ "` has leading zeros: " ++
      "write `2> file` or `2>&1` exactly; stdin and stdout need no prefix"
  else
    "file descriptor " ++ String.ofList digits ++ ": ral has only standard input (0), " ++
      "standard output (1) and standard error (2), so write a file " ++
      "with `> file` or `2> file`"

def redirectToken (fd : Option (List Char)) (op : RedirectOp) : Except String Token :=
  match fd with
  | none => .ok (.redirect op)
  | some digits =>
    let n := String.ofList digits
    match op with
    | .stdout mode =>
      if n = "2" then .ok (.redirect (.stderr mode))
      else if n = "0" then .error stdinUnwritable
      else if n = "1" then
        .error ("`>` already writes standard output: drop the `1`; " ++
          "to pass `1` as an argument, put a space before `>`")
      else .error (fdRefusal digits)
    | .read =>
      if n = "0" then .error "`<` already reads standard input: drop the `0`"
      else if n = "1" ∨ n = "2" then
        .error ("`<` always feeds standard input, so `" ++ n ++ "<` reads nothing in ral: " ++
          "drop the `" ++ n ++ "`, or did you mean `" ++ n ++ "> file` to write there?")
      else .error (fdRefusal digits)
    | .hereString =>
      if n = "0" then .error "`<` already reads standard input: drop the `0`"
      else if n = "1" ∨ n = "2" then
        .error "`<<` always feeds stdin: drop the file-descriptor prefix"
      else .error (fdRefusal digits)
    | .stderr _ =>
      if n = "0" then .error "`<` already reads standard input: drop the `0`"
      else .error (fdRefusal digits)

def dupToken (fd : Option (List Char)) (target : List Char) : Except String Token :=
  let fd := fd.getD ['1']
  let a := String.ofList fd
  let b := String.ofList target
  if a = "0" ∧ (b = "0" ∨ b = "1" ∨ b = "2") then .error stdinUnwritable
  else if a = "2" ∧ b = "1" then .ok .stderrToStdout
  else if a = "1" ∧ b = "2" then
    .error ("ral has no `1>&2`: to write a diagnostic, use " ++
      "`warn \"…\"`, which puts one line on standard error. " ++
      "Did you mean `2>&1`, folding a command's standard error " ++
      "into its standard output?")
  else if (a = "1" ∨ a = "2") ∧ a = b then
    .error ("`" ++ a ++ ">&" ++ a ++ "` names the stream it already is: drop it")
  else if (a = "1" ∨ a = "2") ∧ (b = "0" ∨ b = "1" ∨ b = "2") then
    .error ("ral has no fd plumbing beyond `2>&1`, so `" ++ a ++ ">&" ++ b ++
      "` has nothing to mean")
  else if a = "0" ∨ a = "1" ∨ a = "2" then .error (fdRefusal target)
  else .error (fdRefusal fd)

def redirect (span : Span) (token : Except String Token) : Lex Token := do
  let l ← Run.get
  match token with
  | .ok token => pure token
  | .error why => error (l.finish span) why

def scanRedirectGt (fd : Option (List Char)) (span : Span) : Lex Token := do
  advance 1
  let l ← Run.get
  if l.peek = some '>' then
    advance 1
    redirect span (redirectToken fd (.stdout .append))
  else if l.peek = some '~' ∧ !(l.rest.tail.head?.any continuesBareWord) then
    advance 1
    redirect span (redirectToken fd (.stdout .stream))
  else if l.peek = some '&' then
    advance 1
    let l ← Run.get
    let target ← take (l.rest.takeWhile Char.isDigit).length
    if target = [] then redirect span (.error "expected file descriptor after `>&`")
    else redirect span (dupToken fd target)
  else redirect span (redirectToken fd (.stdout .write))

def scanRedirectLt (fd : Option (List Char)) (span : Span) : Lex Token := do
  advance 1
  let l ← Run.get
  if l.peek = some '<' then
    advance 1
    let l ← Run.get
    if l.peek = some '<' then
      advance 1
      redirect span (.error ("`<<<` is bash's here-string operator: ral's `<<` already " ++
        "feeds a string to stdin, so drop one `<`"))
    else if l.peek.any fun ch => !isWhitespace ch then
      redirect span (.error ("`<<` takes a space before its payload: " ++ noHeredocs))
    else redirect span (redirectToken fd .hereString)
  else redirect span (redirectToken fd .read)

/-- A digit run glued to `>` or `<`. -/
def scanFdRedirect (span : Span) : Lex Token := do
  let l ← Run.get
  let digits ← take (l.rest.takeWhile Char.isDigit).length
  let l ← Run.get
  if l.peek = some '>' then scanRedirectGt (some digits) span
  else scanRedirectLt (some digits) span

/-! ### Splices -/

abbrev Group : Type := Span → DelimKind → Lex (List Lexeme × Option Span)

def commandText (text : List Char) : String :=
  let line := text.takeWhile fun ch => ch ≠ ')' ∧ ch ≠ '\n'
  let line := (line.reverse.dropWhile isWhitespace).reverse
  if 40 < line.length then String.ofList (line.take 40 ++ ['…']) else String.ofList line

def scanDelimitedName : Lex Token := do
  let l ← Run.get
  let dollar : Span := ⟨l.pos - 1, l.pos⟩
  advance 1
  let l ← Run.get
  let opened := l.finish dollar
  let body := l.rest
  let name ← take (identPrefix l.rest).length
  let l ← Run.get
  if l.peek = none then Run.fail ⟨.unclosedDeref opened, opened⟩
  else if name = [] then error (l.finish dollar) "expected identifier after `$(`"
  else if l.peek = some ')' then
    advance 1
    pure (.variable (String.ofList name) true)
  else if l.peek = some ' ' ∨ l.peek = some '\t' then
    error (l.finish dollar)
      ("`$(…)` holds one name, `$(name)`; to run a command and use " ++
        "its output, write `!\x7b" ++ commandText body ++ "\x7d`")
  else error (l.finish dollar) "expected `)` to close `$(...)` dereference"

section Nested
variable (eof : EofPolicy) (group : Group)

/-- The token after a `$` already consumed, `none` for a bare one. -/
def scanDollar : Lex (Option Token) := do
  let l ← Run.get
  if l.peek.any isIdentStart then
    let name ← take (derefIdent l.rest).length
    pure (some (.variable (String.ofList name) false))
  else if l.peek = some '\x7b' then
    error ⟨l.pos - 1, l.pos⟩
      ("`$\x7b…\x7d` is bash: write `$name`, `$(name)` to mark where a name ends, " ++
        "or `!\x7b…\x7d` to run a command")
  else if l.peek = some '(' then
    let token ← scanDelimitedName
    pure (some token)
  else if l.peek = some '[' then
    let opener ← bumpSpanned
    let (body, _) ← group opener .expr
    pure (some (.expr body))
  else pure none

def scanSpliceGroup (kind : DelimKind) : Lex (List Lexeme) := do
  let opener ← bumpSpanned
  let (body, close) ← group opener kind
  let right := close.map fun span => Lexeme.mk kind.right span
  pure (.mk kind.left opener :: (body ++ right.toList))

def keyGroups : ℕ → List Lexeme → Lex (List Lexeme)
  | 0, _ => Run.stuck
  | fuel + 1, tokens => do
    let l ← Run.get
    if l.peek = some '[' then
      let key ← scanSpliceGroup group .bracket
      keyGroups fuel (tokens ++ key)
    else pure tokens

def isDelimited (tokens : List Lexeme) : Bool :=
  match tokens.getLast? with
  | some (.mk (.variable _ delimited) _) => delimited
  | _ => false

/-- The first tokens of a splice, `none` where its sigil opens nothing. -/
def spliceHead : Lex (Option (List Lexeme)) := do
  let l ← Run.get
  let start := l.span
  advance 1
  if l.peek = some '!' then
    let l ← Run.get
    let bang := Lexeme.mk .bang (l.finish start)
    if l.peek = some '\x7b' then
      let body ← scanSpliceGroup group .brace
      pure (some (bang :: body))
    else if l.peek = some '$' ∧
        (l.rest.tail.head?.any fun c => isIdentStart c || c ∈ ['(', '[', '\x7b']) then
      let dollar := l.span
      advance 1
      let token ← scanDollar group
      let l ← Run.get
      pure (some (bang :: (token.map fun token => Lexeme.mk token (l.finish dollar)).toList))
    else pure none
  else
    let token ← scanDollar group
    let l ← Run.get
    pure (token.map fun token => [.mk token (l.finish start)])

/-- A splice inside `"…"`, at its `$` or `!`. `$(name)` ends its name; any other goes on into the
groups that follow at once. -/
def scanSplice : Lex (Option (List Lexeme)) := do
  let head ← spliceHead group
  match head with
  | none => pure none
  | some tokens =>
    if isDelimited tokens then pure (some tokens)
    else
      let l ← Run.get
      let tokens ← keyGroups group (l.rest.length + 1) tokens
      pure (some tokens)

/-! ### Double quotes -/

abbrev LiteralRun : Type := Option (ℕ × List Char)

def LiteralRun.push (run : LiteralRun) (at' : ℕ) (ch : Char) : LiteralRun :=
  match run with
  | none => some (at', [ch])
  | some (start, text) => some (start, text ++ [ch])

def LiteralRun.flush (run : LiteralRun) (parts : List (Span × StringPart)) (stop : ℕ) :
    List (Span × StringPart) :=
  match run with
  | none => parts
  | some (start, text) => parts ++ [(⟨start, stop⟩, .literal (String.ofList text))]

def rewrapInnerIntoString (outer : Span) (inner : LexError) : LexError :=
  if inner.kind.isIncomplete then errUnterminatedString outer .doubleQuoted (some inner.kind)
  else inner

def homePart (span : Span) : Span × StringPart :=
  (span, .splice [.mk (.word (.tilde ⟨none⟩)) span])

def doubleQuotedLoop (opened : Span) : ℕ → List (Span × StringPart) → LiteralRun →
    Lex (List (Span × StringPart))
  | 0, _, _ => Run.stuck
  | fuel + 1, parts, run => do
    let l ← Run.get
    let cursor := l.pos
    match l.rest with
    | [] =>
      unclosedString eof opened .doubleQuoted
      pure (run.flush parts cursor)
    | ch :: rest =>
      if ch = '"' then
        advance 1
        pure (run.flush parts cursor)
      else if ch = '\\' then
        let escape ← bumpSpanned
        let decoded ← scanDoubleQuotedEscape eof escape opened
        doubleQuotedLoop opened fuel parts
          (match decoded with
            | some ch => run.push cursor ch
            | none => run)
      else if ch = '$' ∨ ch = '!' then
        let splice ← Run.mapError (rewrapInnerIntoString opened) (scanSplice group)
        let l ← Run.get
        match splice with
        | some tokens =>
          doubleQuotedLoop opened fuel
            (run.flush parts cursor ++ [(⟨cursor, l.pos⟩, .splice tokens)]) none
        | none => doubleQuotedLoop opened fuel parts (run.push cursor ch)
      else if ch = '~' ∧ cursor = opened.start + 1 ∧
          (rest.head? = some '/' ∨ rest.head? = some '"') then
        let span ← bumpSpanned
        doubleQuotedLoop opened fuel (parts ++ [homePart span]) run
      else
        advance 1
        doubleQuotedLoop opened fuel parts (run.push cursor ch)

def scanDoubleQuoted (span : Span) : Lex Token := do
  advance 1
  let l ← Run.get
  let parts ← doubleQuotedLoop eof group (l.finish span) (l.rest.length + 1) [] none
  pure (.doubleQuoted parts)

/-! ### The next token -/

variable (rules : PathRules)

def ampersandMessage (doubled inExpr : Bool) : String :=
  if doubled then
    "ral has no `&&`: a newline or `;` sequences commands, and an " ++
      "uncaught failure already stops the script. Inside `$[…]`, " ++
      "`&&` is the Boolean connective"
  else if inExpr then "`&` is not an operator: the Boolean connective is `&&`"
  else "`&` does not background a command in ral: wrap it in " ++
    "`spawn \x7b … \x7d`, which returns a handle you `await`"

def controlMessage (ch : Char) : String :=
  "control character U+" ++ String.ofList (upperHex 4 ch.toNat) ++
    " cannot appear bare in ral source: inside a double-quoted string it is written `\\u" ++
    "\x7b" ++ String.ofList (upperHex 0 ch.toNat) ++ "\x7d`"

def scanToken (span : Span) : Lex Token := do
  let l ← Run.get
  match arm l.inExpr l.suppressNewline l.rest with
  | .eof => eofOrUnterminated eof
  | .op op width =>
    advance width
    pure (.op op)
  | .hashQuoted =>
    advance (hashRun l.rest)
    scanQuoted eof span (hashRun l.rest)
  | .separator => scanSeparator
  | .opener kind => openDelim kind
  | .closer kind => closeDelim kind
  | .simple token => bumpSimple token
  | .ampersand =>
    advance 1
    let doubled ← eat '&'
    let l ← Run.get
    error (l.finish span) (ampersandMessage doubled l.inExpr)
  | .dollar =>
    advance 1
    let token ← scanDollar group
    let l ← Run.get
    match token with
    | some token => pure token
    | none =>
      error (l.finish span)
        "expected a name after `$`: write `$name`, `$(name)`, or `$[…]`"
  | .quoted => scanQuoted eof span 0
  | .doubleQuoted => scanDoubleQuoted eof group span
  | .redirectGt => scanRedirectGt none span
  | .redirectLt => scanRedirectLt none span
  | .fdRedirect => scanFdRedirect span
  | .spread =>
    advance 3
    pure .spread
  | .tag => scanTag span
  | .numeral len => scanNumeralWord len
  | .bare => scanBareWord rules
  | .control ch =>
    let span ← bumpSpanned
    error span (controlMessage ch)

def nextToken : Lex Lexeme := do
  Run.modify Lexer.skipInlineWhitespace
  let l ← Run.get
  let token ← scanToken eof group rules l.span
  let l' ← Run.get
  pure (.mk token (l'.finish l.span))

end Nested

/-! ### Groups -/

def nestingDepthLimit : ℕ := 64

def nestingTooDeepMessage : String :=
  "nesting is too deep (more than 64 levels of " ++
    "brackets, braces, or expression blocks): simplify the input"

def pushGroup (opener : Span) (kind : DelimKind) : Lex Unit := do
  let l ← Run.get
  if nestingDepthLimit ≤ l.delims.length then error opener nestingTooDeepMessage
  else Run.modify fun l => { l with delims := ⟨kind, opener⟩ :: l.delims }

def groupLoop (next : Lex Lexeme) (depth : ℕ) : ℕ → List Lexeme →
    Lex (List Lexeme × Option Span)
  | 0, _ => Run.stuck
  | fuel + 1, tokens => do
    let lexeme ← next
    let l ← Run.get
    -- Only the group's own closer pops below its entry depth.
    if l.delims.length < depth then pure (tokens, some lexeme.span)
    else if lexeme.token.isEof then
      Run.modify fun l => { l with delims := l.delims.drop (l.delims.length - (depth - 1)) }
      pure (tokens, none)
    else groupLoop next depth fuel (tokens ++ [lexeme])

/-- Every recursive lexing path enters here; the first argument bounds how deep they nest. -/
def scanTokenGroup (eof : EofPolicy) (rules : PathRules) : ℕ → Group
  | 0, opener, kind => do
    pushGroup opener kind
    Run.stuck
  | nesting + 1, opener, kind => do
    pushGroup opener kind
    let l ← Run.get
    groupLoop (nextToken eof (scanTokenGroup eof rules nesting) rules) l.delims.length
      (l.rest.length + 1) []

end Lex

/-! ## The whole source -/

structure OpenLexemes where
  tokens : List Lexeme
  unclosedString : Option Span

def bidiMessage (ch : Char) (name : String) : String :=
  "bidirectional control character U+" ++ String.ofList (upperHex 4 ch.toNat) ++ " (" ++ name ++
    ") is not allowed in ral source: " ++
    "it can make the text read differently from how it runs; " ++
    "to put it in a string, write `\\u" ++ "\x7b" ++ String.ofList (upperHex 0 ch.toNat) ++ "\x7d`"

def findBidi : ℕ → List Char → Option (ℕ × Char × String)
  | _, [] => none
  | at', ch :: rest =>
    match bidiControlName ch with
    | some name => some (at', ch, name)
    | none => findBidi (at' + ch.utf8Size) rest

def tokenizeLoop (next : Lex Lexeme) : ℕ → List Lexeme → Lex (List Lexeme)
  | 0, _ => Run.stuck
  | fuel + 1, tokens => do
    let lexeme ← next
    if lexeme.token.isEof then pure (tokens ++ [lexeme])
    else tokenizeLoop next fuel (tokens ++ [lexeme])

def tokenize (rules : PathRules) (eof : EofPolicy) (source : String) :
    Option (Except LexError OpenLexemes) :=
  let text := source.toList
  if 2 ^ 32 ≤ Text.size text then
    some (.error ⟨.other "source exceeds the 4 GiB span limit: split it into smaller modules",
      .point 0⟩)
  else
    match findBidi 0 text with
    | some (at', ch, name) =>
      some (.error ⟨.other (bidiMessage ch name), ⟨at', at' + ch.utf8Size⟩⟩)
    | none =>
      let next := Lex.nextToken eof (Lex.scanTokenGroup eof rules Lex.nestingDepthLimit) rules
      (tokenizeLoop next (text.length + 1) [] (Lexer.new text)).map fun r =>
        r.1.map fun tokens => ⟨tokens, r.2.unclosedString⟩

end Ral.Syntax
