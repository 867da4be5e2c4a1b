import Ral.Syntax.Commands

/-! # Statements

Control flow, pipelines, chains and bindings, the blocks and expressions that hold them again,
and the descent that ties the grammar together.
-/

namespace Ral.Syntax
open Ir (Redirects)

def assignIsNoOperator : String := "`=` is not an operator in `$[…]`: did you mean `==`?"

namespace Parse
variable (d : Descent)

/-! ## Control flow -/

def parseArmBody (label : String) : Parse (Spanned Ast) := do
  let p ← Run.get
  if p.peek.is .lBrace then spanned (d.parseCaseArmLambda label) else spanned (parseAtom d)

def parseCaseArm : Parse (CaseArm Ast) := do
  let p ← Run.get
  match p.peek with
  | .spread => Run.fail (p.error ("a `case` lists its arms one by one, so a `...` spread has no meaning " ++
      "here: an arm spliced in from elsewhere is an alternative `case` cannot " ++
      "see, and so cannot prove it covers. Write it out as an arm of its own."))
  | .tag label =>
    advance
    let q ← Run.get
    if !q.peek.is .colon then
      Run.fail (q.error (s!"expected `:` after the `{label} arm's tag, found " ++ q.peek.display ++ "."))
    else
      advance
      let body ← parseArmBody d label
      pure ⟨⟨p.span, label⟩, body⟩
  | token => Run.fail (p.error ("a `case` arm is labelled by a tag, as in " ++
      "case $x [`some: \x7b |p| … \x7d]: but found " ++ token.display ++ "."))

def parseCase : Parse Ast := do
  advance
  skipNewlines
  let scrutinee ← captureSpan (parseAtom d)
  skipNewlines
  requireContinuation "the `case` arms"
  let p ← Run.get
  if !p.peek.is .lBracket then
    Run.fail (p.error ("`case` wants its arms here, one per tag, written out: " ++
      "case $x [`ok: \x7b |v| … \x7d, `err: \x7b |e| … \x7d]: but found " ++ p.peek.display ++ ". " ++
      "The arms are syntax, not a record: a table assembled elsewhere hides " ++
      "alternatives `case` must see to prove it covers every tag."))
  else
    advance
    let q ← Run.get
    if q.peek.is .rBracket then
      Run.fail (q.error ("`case` needs at least one arm: what should it do with the value? " ++
        "Write one arm per tag, as in case $x [`ok: \x7b |v| … \x7d]."))
    else
      let arms ← parseBracketItems .caseArms (fun arms => do
        let arm ← parseCaseArm d
        if arms.any fun a => a.tag.item == arm.tag.item then
          Run.fail (.new (some arm.tag.span)
            ("this `case` already has a `" ++ arm.tag.item ++ " arm, and exactly one " ++
              "computation may run per tag: merge the two bodies, or give " ++
              "the second arm the tag you meant."))
        else pure (.cont, arms ++ [arm])) ([] : List (CaseArm Ast))
      pure (.case ⟨scrutinee.1, scrutinee.2⟩ arms)

/-- One `cond body` pair. -/
def parseIfBranch : Parse (IfBranch Ast) := do
  let cond ← captureSpan (parseAtom d)
  skipNewlines
  requireContinuation "the `if` body"
  let body ← captureSpan (parseAtom d)
  pure ⟨⟨cond.1, cond.2⟩, ⟨body.1, body.2⟩⟩

/-- An `elsif` or `else` may open the next line, so that newlines before it are skipped and
rewound if neither follows. -/
def parseIfTail (branches : List (IfBranch Ast)) :
    Parse (Turn (List (IfBranch Ast)) (List (IfBranch Ast) × Option (Spanned Ast))) := do
  let save ← Run.get
  skipNewlines
  let p ← Run.get
  if p.peek.asPlainWord = some "elsif" then
    advance
    endUnit d p.span
    skipNewlines
    requireContinuation "the `elsif` condition"
    let branch ← parseIfBranch d
    pure (.again (branches ++ [branch]))
  else if p.peek.asPlainWord = some "else" then
    advance
    endUnit d p.span
    skipNewlines
    requireContinuation "the `else` body"
    let body ← captureSpan (parseAtom d)
    pure (.done (branches, some ⟨body.1, body.2⟩))
  -- No newline intervened: a third block where `else` should be.
  else if p.pos = save.pos ∧ p.peek.is .lBrace then
    Run.fail (p.error ("unexpected `\x7b` after `if`: did you mean `else \x7b … \x7d`?"))
  else
    Run.modify fun p => p.rewind save.pos
    pure (.done (branches, none))

def parseIf : Parse Ast := do
  advance
  skipNewlines
  requireContinuation "the `if` condition"
  let branch ← parseIfBranch d
  let (branches, else') ← loop (parseIfTail d) [branch]
  pure (.if' branches else')

def parseReturnStage : Parse Ast := do
  advance
  let p ← Run.get
  if p.atCmdEnd || p.atRedirect then pure (.return' none)
  else
    match p.peek.asPlainWord.filter beginsStatement with
    | some word => Run.fail (p.error (s!"`return` takes one value, and `{word}` begins a statement: put the " ++
        "`return` inside each branch, or write `return !\x7b" ++ word ++ " …\x7d`"))
    | none =>
      let value ← captureSpan (parseAtom d)
      let q ← Run.get
      if !(q.atCmdEnd || q.atRedirect) then
        Run.fail (q.error "return expects at most one value argument")
      else pure (.return' (some ⟨value.1, value.2⟩))

/-! ## Stages -/

def trailed (parse : Parse Ast) : Parse (Ast × Redirects Ast) := do
  let form ← parse
  let redirects ← collectTrailingRedirects d
  pure (form, redirects)

def stageForm (head : Option String) : Parse (Ast × Redirects Ast) :=
  match head with
  | none => parseCommand d
  | some word =>
    if word = "let" then
      failAt ("`let` is a statement, not a pipeline stage or chain branch: " ++
        "move the binding to its own line, or wrap the consumer in a " ++
        "block: `\x7b let x = …; … \x7d`")
    else if word = "else" ∨ word = "elsif" then
      failAt s!"`{word}` continues an `if` on the line above; there is none here"
    else if word = "return" then trailed d (parseReturnStage d)
    else if word = "if" then trailed d (parseIf d)
    else if word = "case" then trailed d (parseCase d)
    else if isControlOperator word then trailed d (parseControlOp d word)
    else parseCommand d

def parseStage : Parse Ast := do
  let p ← Run.get
  let head := p.peek.asPlainWord
  if head.any isStageKeyword && p.atomStartsAt 1 p.span.stop then
    advance
    let e ← touching d p.span
    Run.fail e
  else
    let form ← captureSpan (stageForm d head)
    let stage := if form.2.2.isEmpty then form.2.1 else .redirected ⟨form.1, form.2.1⟩ form.2.2
    let q ← Run.get
    if q.atCmdEnd then pure stage
    else Run.fail (q.error ("unexpected " ++ q.peek.display ++ " after `" ++ head.getD "this" ++
      "`; a new statement needs a separator (newline or ';')"))

def parsePipeline : Parse Ast := do
  let first ← spanned (parseStage d)
  let stages ← loop (fun stages => do
    let more ← eatContinuation .pipe
    if more then
      let p ← Run.get
      if p.peek.is .pipe then Run.fail (p.error noOrOr)
      else
        requireContinuation "a pipeline stage"
        let stage ← spanned (parseStage d)
        pure (.again (stages ++ [stage]))
    else pure (.done stages)) [first]
  match stages with
  | [stage] => pure stage.item
  | stages => pure (.pipeline stages)

/-- `chain = pipeline (NL* '?' NL* pipeline)*`. A single arm is its bare self. -/
def parseChain : Parse Ast := do
  let first ← spanned (parsePipeline d)
  let arms ← loop (fun arms => do
    let more ← eatContinuation .question
    if more then
      requireContinuation "a chain branch"
      let arm ← spanned (parsePipeline d)
      pure (.again (arms ++ [arm]))
    else pure (.done arms)) [first]
  match arms with
  | [arm] => pure arm.item
  | arms => pure (.chain arms)

/-- `binding = 'let' pattern '=' chain`, `none` when the next token is not `let`. -/
def parseBindingOpt : Parse (Option Ast) := do
  let p ← Run.get
  if p.peek.asPlainWord ≠ some "let" then pure none
  else
    advance
    let pattern ← parseBinder d
    let q ← Run.get
    if q.peek.asPlainWord = some "=" then
      advance
      skipNewlines
      let r ← Run.get
      if r.peek.is .eof then
        Run.fail (r.error "expected the right-hand side of the `let` binding").asIncomplete
      else
        let value ← captureSpan (parseChain d)
        pure (some (.let' pattern ⟨value.1, value.2⟩))
    else Run.fail (q.gluedEquals.getD (q.error "expected '=' after the binding name in `let`"))

def parseStmt : Parse Ast := do
  let binding ← parseBindingOpt d
  match binding with
  | some tree => pure tree
  | none => parseChain d

def parseProgram : Parse (List Stmt) := do
  skipSeparators
  loop (fun stmts => do
    let p ← Run.get
    if p.peek.is .eof || p.peek.is .rBrace then pure (.done stmts)
    else
      let stmt ← spanned (parseStmt d)
      skipSeparators
      pure (.again (stmts ++ [stmt]))) []

/-! ## Blocks -/

def parseUnit : Parse Ast := do
  expect .lParen
  let closed ← eat .rParen
  if closed then pure .unit
  else failAt ("parentheses group only inside `$[…]`; here `()` is the unit value. Did you " ++
    "mean `$[…]` for arithmetic, or `!\x7b…\x7d` to run a command inline?")

def parseParams : Parse (List (Spanned Ir.Pattern)) := do
  let params ← loop (fun params => do
    let p ← Run.get
    if p.peek.is .pipe then pure (.done params)
    else if p.atStmtEnd then
      Run.fail (p.error ("expected `|` to close the parameter list: `\x7b |x| … \x7d`"))
    else
      let param ← parseBinder d
      pure (.again (params ++ [param]))) []
  expect .pipe
  pure params

def curry (span : Span) (body : List Stmt) : Spanned Ir.Pattern → List (Spanned Ir.Pattern) → Ast
  | param, [] => .lambda param body
  | param, next :: params => .lambda param [⟨span, curry span body next params⟩]

def parseBlock : Parse Ast := do
  expect .lBrace
  let p ← Run.get
  if p.peek.is .newline && (p.peekAt 1).is .pipe then
    advance
    failAt ("a function's parameters open on the same line as `\x7b`: " ++
      "write `\x7b |x|` and break the line after it")
  else
    let lambda ← eat .pipe
    if lambda then
      let params ← parseParams d
      match params with
      | [] => failAt ("lambda requires at least one parameter: use \x7b \x7d for thunks")
      | param :: params =>
        let body ← parseProgram d
        expect .rBrace
        let q ← Run.get
        -- The synthetic wrapper statements borrow the real body's span.
        pure (curry ((body.head?.map Spanned.span).getD q.span) body param params)
    else
      let body ← parseProgram d
      expect .rBrace
      pure (.block body)

def caseArmLambda (label : String) : Parse Ast := do
  advance
  let p ← Run.get
  if !p.peek.is .pipe then
    Run.fail (p.error (s!"the `{label} arm must bind its payload: write " ++
      "\x7b |p| … \x7d, " ++ "or \x7b |_| … \x7d where the tag carries nothing."))
  else
    advance
    let param ← parseBinder d
    let q ← Run.get
    if !q.peek.is .pipe then
      Run.fail (q.error (s!"a `case` arm binds exactly one payload, so the `{label} arm takes one " ++
        "parameter: destructure it in place if it carries several fields, " ++
        "as in \x7b |[head: h, tail: t]| … \x7d."))
    else
      advance
      let body ← parseProgram d
      expect .rBrace
      pure (.lambda param body)

def primaryBody : Parse Ast := do
  let p ← Run.get
  match p.peek with
  | .lBrace => parseBlock d
  | .lBracket => parseCollection d
  | .lParen => parseUnit
  | _ => parseWord d

/-! ## Expressions -/

def numericOperand (operand : Spanned Ast) : Except ParseError Unit :=
  match operand.item with
  | .word (.plain w) =>
    if isLiteral w then .ok ()
    else .error (.new (some operand.span) (
      if isIdent w then s!"`{w}` is the string '{w}' here, not a number: did you mean `${w}`?"
      else
        match exponentOnly w.toList with
        | some mantissa =>
          s!"`{w}` is the string '{w}' here, not a number; a float needs a point: write `" ++
            String.ofList mantissa ++ ".0" ++ String.ofList (w.toList.drop mantissa.length) ++ "`"
        | none => s!"`{w}` is the string '{w}' here, not a number"))
  | _ => .ok ()

def binaryNode (assign : ParseError) (left right : Spanned Ast) : Operator → Except ParseError Ast
  | .and => .ok (.and left right)
  | .or => .ok (.or left right)
  | .binary (.eq o) => .ok (.binary left (.eq o) right)
  | .binary o => do
    numericOperand left
    numericOperand right
    pure (.binary left o right)
  | .assign => .error assign

/-- Precedence climbing; the first argument bounds how far up the ladder goes. -/
def parseExprPrec : ℕ → ℕ → Parse (Spanned Ast)
  | 0, _ => Run.stuck
  | ladder + 1, minPrec => do
    let start ← Run.get
    let first ← captureSpan d.parseExprOperand
    loop (fun left => do
      let p ← Run.get
      match p.peek with
      | .op .assign => Run.fail (p.error assignIsNoOperator)
      | .op op =>
        if precedence op < minPrec then pure (.done left)
        else
          advance
          let q ← Run.get
          if q.peek.is .eof then
            Run.fail (.new (some p.span) ("`" ++ op.display ++ "` needs an operand on its right"))
          else
            let right ← parseExprPrec ladder (precedence op + 1)
            let r ← Run.get
            let node ← Run.ofExcept (binaryNode (r.error assignIsNoOperator) left right op)
            pure (.again ⟨start.span.join r.prevByteSpan, node⟩)
      | _ => pure (.done left)) ⟨first.1, first.2⟩

/-- The whole ladder, `||` to the unary prefixes. -/
def parseExpr : Parse (Spanned Ast) := parseExprPrec d 7 0

def operandAfter (at' : Span) (name : String) : Parse Unit := do
  let p ← Run.get
  if p.peek.is .eof then Run.fail (.new (some at') s!"`{name}` needs an operand") else pure ()

def operandBody : Parse Ast := do
  let p ← Run.get
  if p.peek.is .lParen && !(p.peekAt 1).is .rParen then
    let group ← captureSpan do
      advance
      let expr ← parseExpr d
      expect .rParen
      pure expr
    endUnit d group.1
    pure group.2.item
  else if p.signedNumeral.isSome then parseAtom d
  else
    match p.peek with
    | .op (.binary (.arith .sub)) =>
      advance
      operandAfter p.span "-"
      let inner ← captureSpan d.parseExprOperand
      Run.ofExcept (numericOperand ⟨inner.1, inner.2⟩)
      pure (.negate ⟨inner.1, inner.2⟩)
    | .op .assign => Run.fail (p.error assignIsNoOperator)
    | .op op => Run.fail (p.error ("`" ++ op.display ++ "` is an operator and needs an operand on each side"))
    | .word (.plain s) =>
      if s = "not" then
        advance
        endUnit d p.span
        operandAfter p.span "not"
        let inner ← captureSpan d.parseExprOperand
        pure (.not ⟨inner.1, inner.2⟩)
      else parseAtom d
    | _ => parseAtom d

end Parse

/-! ## The descent -/

/-- What a token the parse never reached means for a whole program or a splice. -/
def trailingInput (found : Token) : String :=
  if found.is .rBrace then "unmatched `\x7d`: no enclosing block is open"
  else "trailing input: unexpected " ++ found.display ++ " after the parse completed"

namespace Descent
open Parse

/-- The entries that parse a stream of their own. -/
structure Streams where
  parseExprBlock : List Lexeme → Span → Option (Except ParseError Ast)
  parseSplice : List Lexeme → Span → Option (Except ParseError Ast)

def keyed (d : Descent) : ℕ → Descent
  | 0 => { d with parseAtomUnchecked := Run.stuck }
  | n + 1 => { d with parseAtomUnchecked := atomUnchecked (keyed d n) }

/-- Every index key takes tokens. -/
def withAtoms (d : Descent) : Descent :=
  { d with parseAtomUnchecked := do
      let p ← Run.get
      (keyed d (p.tokens.length - p.pos + 1)).parseAtomUnchecked }

def deepen (s : Streams) (d : Descent) : Descent :=
  withAtoms
    { parsePrimary := nested (primaryBody d)
      parsePattern := nested (patternBody d)
      parseExprOperand := nested (operandBody d)
      parseCaseArmLambda := fun label => nested (caseArmLambda d label)
      parseAtomUnchecked := Run.stuck
      parseExprBlock := s.parseExprBlock
      parseSplice := s.parseSplice }

/-- The entries below the nesting limit: none is let in. -/
def bottom (s : Streams) : Descent :=
  withAtoms
    { parsePrimary := nested Run.stuck
      parsePattern := nested Run.stuck
      parseExprOperand := nested Run.stuck
      parseCaseArmLambda := fun _ => nested Run.stuck
      parseAtomUnchecked := Run.stuck
      parseExprBlock := s.parseExprBlock
      parseSplice := s.parseSplice }

/-- The entries `levels` above the nesting limit. -/
def descend (s : Streams) : ℕ → Descent
  | 0 => bottom s
  | levels + 1 => deepen s (descend s levels)

def exprBody (d : Descent) : Parse Ast := do
  let expr ← parseExpr d
  pure expr.item

def exprBlock (d : Descent) (tokens : List Lexeme) (at' : Span) : Option (Except ParseError Ast) :=
  if tokens.isEmpty then
    some (.error (.new (some at') "`$[…]` holds an expression: `$[1 + 2]`, `$[$n > 0]`"))
  else
    runComplete tokens at'
      (fun found => "expected an operator before " ++ found.display ++ ": `$[…]` holds one expression")
      (exprBody d)

/-- Streams that nest at most `height` deep. A stream of its own starts at depth zero. -/
def streams : ℕ → Streams
  | 0 => ⟨fun _ _ => none, fun _ _ => none⟩
  | height + 1 =>
    let d := descend (streams height) Lex.nestingDepthLimit
    ⟨exprBlock d, fun tokens at' => runComplete tokens at' trailingInput (parseAtom d)⟩

end Descent

/-! ## The whole source -/

mutual

def Token.height : Token → ℕ
  | .expr body => heights body + 1
  | .doubleQuoted parts => partHeights parts
  | _ => 0

def heights : List Lexeme → ℕ
  | [] => 0
  | .mk token _ :: lexemes => max token.height (heights lexemes)

def partHeights : List (Span × StringPart) → ℕ
  | [] => 0
  | (_, .literal _) :: parts => partHeights parts
  | (_, .splice tokens) :: parts => max (heights tokens + 1) (partHeights parts)

end

def parseTokens (tokens : List Lexeme) : Option (Except ParseError (List Stmt)) :=
  Parse.runComplete tokens (.point 0) trailingInput
    (Parse.parseProgram (Descent.descend (Descent.streams (heights tokens)) Lex.nestingDepthLimit))

def parse (rules : PathRules) (source : String) : Option (Except ParseError (List Stmt)) :=
  match tokenize rules .requireClosed source with
  | none => none
  | some (.error e) => some (.error (.ofLex e))
  | some (.ok lexed) => parseTokens lexed.tokens

end Ral.Syntax
