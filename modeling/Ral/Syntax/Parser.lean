import Ral.Syntax.Ast
import Ral.Syntax.Vocabulary

/-! # The parser's state

A cursor over one token stream, its errors, and the loop and descent every production is
built from. A panic of the source has no outcome here.
-/

namespace Ral.Syntax

def Span.join (a b : Span) : Span := ⟨min a.start b.start, max a.stop b.stop⟩

/-! ## Errors -/

/-- What an entry that runs on was most likely meant as. -/
inductive EntryReading
  | statement (word : String)
  | binding
  | command
  | value

def EntryReading.of : Token → EntryReading
  | .word (.plain w) =>
    if w == "let" then .binding
    else if beginsStatement w then .statement w
    else if isLiteral w then .value
    else .command
  | .word _ | .variable _ _ | .bang | .lBrace => .command
  | _ => .value

inductive ParseErrorKind
  | plain (hint : Option String)
  | lex (kind : LexErrorKind)
  /-- Two atoms with nothing between them, and the whole touching run. -/
  | touching (first second run : Span)
  | entryRuns (entry head : Span) (reading : EntryReading)

structure ParseError where
  message : String
  span : Option Span
  kind : ParseErrorKind
  incomplete : Bool

namespace ParseError

def new (span : Option Span) (message : String) : ParseError := ⟨message, span, .plain none, false⟩

def withHint (e : ParseError) (hint : String) : ParseError := { e with kind := .plain (some hint) }

def asIncomplete (e : ParseError) : ParseError := { e with incomplete := true }

def ofLex (e : LexError) : ParseError := ⟨e.kind.message, some e.span, .lex e.kind, e.kind.isIncomplete⟩

end ParseError

/-! ## The cursor -/

/-- A place in a token stream. The descent never passes the nesting limit. -/
structure Parser where
  tokens : List Lexeme
  pos : ℕ
  /-- Where the stream came from: the `$[…]` token or the splice, the file's start at the top
  level. -/
  at' : Span
  /-- Descent depth, maintained only by `nested`. -/
  depth : ℕ
  inside : pos ≤ tokens.length
  shallow : depth ≤ Lex.nestingDepthLimit

/-- A production. -/
abbrev Parse : Type → Type := Run ParseError Parser

/-- A literal admits computed keys; a pattern needs written names. -/
inductive KeyAlphabet
  | label
  | data
deriving DecidableEq

namespace Parser

def start (tokens : List Lexeme) (at' : Span) : Parser := ⟨tokens, 0, at', 0, Nat.zero_le _, Nat.zero_le _⟩

def peekAt (p : Parser) (ahead : ℕ) : Token :=
  match p.tokens[p.pos + ahead]? with
  | some l => l.token
  | none => .eof

def peek (p : Parser) : Token := p.peekAt 0

/-- Span of the current token, of the last one past the end, or of where an empty stream came
from. -/
def span (p : Parser) : Span :=
  match p.tokens[p.pos]? with
  | some l => l.span
  | none =>
    match p.tokens.getLast? with
    | some l => l.span
    | none => p.at'

def prevByteSpan (p : Parser) : Span :=
  match p.tokens[p.pos - 1]? with
  | some l => l.span
  | none => p.span

def next (p : Parser) : Parser :=
  if h : p.pos < p.tokens.length then { p with pos := p.pos + 1, inside := h } else p

def deeper (p : Parser) : Parser :=
  if h : p.depth < Lex.nestingDepthLimit then { p with depth := p.depth + 1, shallow := h } else p

def shallower (p : Parser) : Parser :=
  { p with depth := p.depth - 1, shallow := le_trans (Nat.sub_le _ _) p.shallow }

/-- The cursor back at an earlier place. -/
def rewind (p : Parser) (save : ℕ) : Parser :=
  if h : save ≤ p.tokens.length then { p with pos := save, inside := h } else p

def error (p : Parser) (message : String) : ParseError := .new (some p.span) message

def atStmtEnd (p : Parser) : Bool :=
  match p.peek with
  | .newline | .semi | .eof | .rBrace => true
  | _ => false

def atCmdEnd (p : Parser) : Bool := p.atStmtEnd || p.peek.is .question || p.peek.is .pipe

def atRedirect (p : Parser) : Bool := p.peek.isRedirect

def atomStartsAt (p : Parser) (ahead stop : ℕ) : Bool :=
  match p.tokens[p.pos + ahead]? with
  | some l => l.token.isAtomStart && l.span.start = stop
  | none => false

def touchesAfter (p : Parser) (unit : Span) : Bool := p.atomStartsAt 0 unit.stop

/-- Nothing separates the token at the cursor from the one after it. -/
def touchesNext (p : Parser) : Bool :=
  match p.tokens[p.pos + 1]? with
  | some l => l.span.start = p.span.stop
  | none => false

/-- No gap since the previous token. -/
def nextTokenIsAdjacent (p : Parser) : Bool :=
  match p.tokens[p.pos - 1]?, p.tokens[p.pos]? with
  | some prev, some next => prev.span.stop = next.span.start
  | _, _ => false

def signedNumeral (p : Parser) : Option String :=
  match p.peek, p.peekAt 1 with
  | .op (.binary (.arith sign)), .word (.plain word) =>
    let numeral := sign.symbol ++ word
    if (sign = .add ∨ sign = .sub) ∧ p.touchesNext ∧ (Numeral.shape numeral.toList).isSome then
      some numeral
    else none
  | _, _ => none

def atDelimitedName (p : Parser) : Bool :=
  match p.peekAt (if p.peek.is .bang then 1 else 0) with
  | .variable _ delimited => delimited
  | _ => false

/-- Separators, closers, and operators other than a numeral's sign. -/
def atTagPayloadEnd (p : Parser) : Bool :=
  match p.peek with
  | .op _ => p.signedNumeral.isNone
  | .newline | .semi | .eof | .rBrace | .rBracket | .rParen | .pipe | .question | .comma | .colon
  | .spread | .redirect _ | .stderrToStdout => true
  | _ => false

/-- In patterns, tags and spliced strings reach `parseStaticKey` for refusal. -/
def keyColonHere (p : Parser) (alphabet : KeyAlphabet) : Bool :=
  let isKey := match p.peek with
    | .word (.plain _) | .singleQuoted _ | .tag _ | .doubleQuoted _ => true
    | .variable _ _ => alphabet = .data
    | _ => false
  isKey && (p.peekAt 1).is .colon

def entryEndFrom : ℕ → Span → List Lexeme → Span
  | _, last, [] => last
  | depth, last, l :: rest =>
    match l.token with
    | .lBracket | .lBrace | .lParen => entryEndFrom (depth + 1) l.span rest
    | .rBracket | .rBrace | .rParen =>
      if depth = 0 then last else entryEndFrom (depth - 1) l.span rest
    | .comma | .eof => if depth = 0 then last else entryEndFrom depth l.span rest
    | _ => entryEndFrom depth l.span rest

def entryEnd (p : Parser) : Span := entryEndFrom 0 p.prevByteSpan (p.tokens.drop p.pos)

/-- The bash `x=5` where `let x = 5` is meant. -/
def gluedEquals (p : Parser) : Option ParseError :=
  let glued (word : String) := if word.toList.contains '=' then
    some (p.error s!"`{word}` is one word: `let` wants spaces around `=`, as in `let x = 5`")
    else none
  match p.peek with
  | .word (.plain word) => glued word
  | .word (.path word) => glued word
  | _ => none

/-- A `:` where a value belongs. -/
def strayColon (p : Parser) : ParseError :=
  let hint := match (if p.pos = 0 then none else p.tokens[p.pos - 1]?).map Lexeme.token with
    | some (.word (.plain k)) =>
      if isIdent k then s!"for a record, write `[{k}: …]`; for text, quote it: `'{k}:'`"
      else "write a key before it, as in `[name: 1]`, or quote a literal colon: `':'`"
    | _ => "write a key before it, as in `[name: 1]`, or quote a literal colon: `':'`"
  (p.error "`:` stands only between a key and its value, inside `[ ]`").withHint hint

def invalidTagKey (p : Parser) (label : String) : ParseError :=
  (p.error (s!"`` `{label} `` names a variant, so it cannot be a key: a tag says " ++
    "*which of* several alternatives, and a key says *which part of* one value")).withHint
    (s!"write the field as `{label}`, or, if these are the arms of a match, " ++
      s!"write them as case $x [`{label}: " ++ "\x7b |p| … \x7d, …]")

def invalidPosition (p : Parser) (word : String) : ParseError :=
  (p.error (s!"`{word}` is not a list position: a position is a whole number from 0, " ++
    "as in `$xs[0]`")).withHint s!"a field whose name is a number is quoted: `$r['{word}']`"

end Parser

/-! ## Steps -/

namespace Parse
variable {α β : Type}

def advance : Parse Unit := Run.modify Parser.next

def eat (token : Token) : Parse Bool := do
  let p ← Run.get
  if p.peek.is token then
    advance
    pure true
  else pure false

def failAt (message : String) : Parse α := do
  let p ← Run.get
  Run.fail (p.error message)

def expect (expected : Token) : Parse Unit := do
  let p ← Run.get
  if p.peek.is expected then advance
  else Run.fail (p.error ("expected " ++ expected.display ++ ", found " ++ p.peek.display))

/-- End of input here is the user mid-typing. -/
def requireContinuation (what : String) : Parse Unit := do
  let p ← Run.get
  if p.peek.is .eof then Run.fail (p.error s!"expected {what} after the continuation").asIncomplete
  else pure ()

/-- A marker must touch what it marks. -/
def attached (message : String) : Parse Unit := do
  let p ← Run.get
  if p.nextTokenIsAdjacent then pure () else Run.fail (p.error message)

/-- Run a production and report the span from the current token to the last it consumed. -/
def captureSpan (parse : Parse α) : Parse (Span × α) := do
  let p ← Run.get
  let v ← parse
  let q ← Run.get
  pure (p.span.join q.prevByteSpan, v)

def spanned (parse : Parse α) : Parse (Spanned α) := do
  let r ← captureSpan parse
  pure ⟨r.1, r.2⟩

/-! ### Loops -/

/-- What a turn of a loop decides. -/
inductive Turn (α β : Type)
  | again (acc : α)
  | done (result : β)

/-- Up to `n` turns. One that asks for another without having consumed a token has no outcome. -/
def turns (body : α → Parse (Turn α β)) : ℕ → α → Parse β
  | 0, _ => Run.stuck
  | n + 1, acc => do
    let before ← Run.get
    let turn ← body acc
    match turn with
    | .done result => pure result
    | .again acc =>
      let after ← Run.get
      if before.pos < after.pos then turns body n acc else Run.stuck

/-- No stream has more turns in it than tokens ahead. -/
def loop (body : α → Parse (Turn α β)) (acc : α) : Parse β := do
  let p ← Run.get
  turns body (p.tokens.length - p.pos + 1) acc

def skipWhile (skips : Token → Bool) : Parse Unit :=
  loop (fun _ => do
    let p ← Run.get
    if skips p.peek then
      advance
      pure (.again ())
    else pure (.done ())) ()

/-- Soft newlines only: continuation contexts may not cross a `;`. -/
def skipNewlines : Parse Unit := skipWhile fun token => token.is .newline

def skipSeparators : Parse Unit := skipWhile fun token => token.is .newline || token.is .semi

/-- Consume `token` with any number of newlines on either side; rewinds on a miss. -/
def eatContinuation (token : Token) : Parse Bool := do
  let save ← Run.get
  skipNewlines
  let p ← Run.get
  if p.peek.is token then
    advance
    skipNewlines
    pure true
  else
    Run.modify fun p => p.rewind save.pos
    pure false

/-! ### Descent -/

/-- One level deeper, rejecting past the cap. -/
def nested (body : Parse α) : Parse α := do
  let p ← Run.get
  if p.depth < Lex.nestingDepthLimit then
    Run.modify Parser.deeper
    let r ← Run.attempt body
    let q ← Run.get
    -- The decrement would underflow.
    if q.depth = 0 then Run.stuck
    else
      Run.modify Parser.shallower
      Run.ofExcept r
  else Run.fail (p.error Lex.nestingTooDeepMessage)

def runComplete (tokens : List Lexeme) (at' : Span) (leftover : Token → String) (body : Parse α) :
    Option (Except ParseError α) :=
  Run.outcome (do
    let value ← body
    let p ← Run.get
    if p.peek.is .eof then pure value else Run.fail (p.error (leftover p.peek)))
    (Parser.start tokens at')

end Parse

end Ral.Syntax
