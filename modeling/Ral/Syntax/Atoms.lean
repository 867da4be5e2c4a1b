import Ral.Syntax.Parser

/-! # Atoms

The value grammar below the statement: words, strings, forces and index keys. Productions call
one another through a `Descent`, whose entries are those that may recurse.
-/

namespace Ral.Syntax

def spreadAttaches : String := "`...` attaches to the value it spreads: write `...$xs`"

def spreadNeedsAValue : String := "`...` spreads the value after it: write `...$xs`"

def reservedKeywordMessage (name : String) : String :=
  s!"'{name}' is a reserved keyword and cannot be used as a binding name"

/-- The recursive entries of the grammar. -/
structure Descent where
  parsePrimary : Parse Ast
  parsePattern : Parse Ir.Pattern
  parseExprOperand : Parse Ast
  parseCaseArmLambda : String → Parse Ast
  /-- An atom without the words rule. An index key may hold one, at no deeper level. -/
  parseAtomUnchecked : Parse Ast
  parseExprBlock : List Lexeme → Span → Option (Except ParseError Ast)
  parseSplice : List Lexeme → Span → Option (Except ParseError Ast)

namespace Parse
variable (d : Descent)

/-! ## Touching -/

def argOf (atom : Parse Ast) : Parse Ast := do
  let spread ← eat .spread
  if spread then
    let p ← Run.get
    if p.atCmdEnd then Run.fail (.new (some p.prevByteSpan) spreadNeedsAValue)
    else
      attached spreadAttaches
      let inner ← captureSpan atom
      pure (.spread ⟨inner.1, inner.2⟩)
  else atom

def parseArgUnchecked : Parse Ast := argOf d.parseAtomUnchecked

def touchingRun (first : Span) : Parse ParseError := do
  let second ← captureSpan (parseArgUnchecked d)
  let last ← loop (fun last => do
    let p ← Run.get
    if p.touchesAfter last then
      let more ← captureSpan (parseArgUnchecked d)
      pure (.again more.1)
    else pure (.done last)) second.1
  pure { ParseError.new (some second.1)
      "words touch: whitespace separates words, and nothing joins them" with
    kind := .touching first second.1 (first.join last) }

/-- The atom ahead touches `first`. An error inside the run is reported instead. -/
def touching (first : Span) : Parse ParseError := do
  let run ← Run.attempt (touchingRun d first)
  match run with
  | .ok e => pure e
  | .error e => pure e

/-- The words rule: nothing may begin where a unit ends. -/
def endUnit (unit : Span) : Parse Unit := do
  let p ← Run.get
  if p.touchesAfter unit then
    let e ← touching d unit
    Run.fail e
  else pure ()

def parseAtom : Parse Ast := do
  let atom ← captureSpan d.parseAtomUnchecked
  endUnit d atom.1
  pure atom.2

def parseArg : Parse Ast := argOf (parseAtom d)

/-! ## Words -/

def constantString : List (Span × StringPart) → Option String
  | [] => some ""
  | [(_, .literal s)] => some s
  | _ => none

def parseSegment (part : Span × StringPart) : Parse (Spanned Ast) :=
  match part.2 with
  | .literal s => pure ⟨part.1, .literal s⟩
  | .splice tokens => do
    let segment ← Run.lift (d.parseSplice tokens part.1)
    pure ⟨part.1, segment⟩

def parseSegments : List (Span × StringPart) → Parse (List (Spanned Ast))
  | [] => pure []
  | part :: parts => do
    let segment ← parseSegment d part
    let segments ← parseSegments parts
    pure (segment :: segments)

def parseInterpolationParts (parts : List (Span × StringPart)) : Parse Ast :=
  match constantString parts with
  | some s => pure (.literal s)
  | none => do
    let segments ← parseSegments d parts
    pure (.interpolation segments)

/-- `force = '!' variable index* | '!' primary`. A dereference reaches over its keys; any other
primary is forced first. -/
def parseBang : Parse Ast := do
  let inner ← captureSpan do
    advance
    attached ("`!` attaches to what it forces: write `!\x7b…\x7d` or `!$x`")
    let p ← Run.get
    match p.peek with
    | .variable _ _ => d.parseAtomUnchecked
    | _ => d.parsePrimary
  pure (.force ⟨inner.1, inner.2⟩)

def parseWord : Parse Ast := do
  let p ← Run.get
  match p.signedNumeral with
  | some numeral =>
    advance
    advance
    pure (.word (.plain numeral))
  | none =>
    match p.peek with
    | .word w =>
      advance
      pure (.word w)
    | .singleQuoted s =>
      advance
      pure (.literal s)
    | .doubleQuoted parts =>
      advance
      parseInterpolationParts d parts
    | .variable name _ =>
      advance
      pure (.variable name)
    | .expr tokens =>
      advance
      Run.lift (d.parseExprBlock tokens p.span)
    | .caret => Run.fail (p.error "'^name' is only valid in command-head position")
    | .colon => Run.fail p.strayColon
    | .bang => parseBang d
    | .tag label =>
      advance
      let q ← Run.get
      if q.atTagPayloadEnd then pure (.tag label none)
      else
        let payload ← captureSpan (parseAtom d)
        pure (.tag label (some ⟨payload.1, payload.2⟩))
    | token => Run.fail (p.error ("unexpected token: " ++ token.display))

/-! ## Index keys -/

def keyOf : Ast → IndexKey Ast
  | .literal label => .label label
  | tree => .data tree

def parseIndexKey : Parse (IndexKey Ast) := do
  let p ← Run.get
  match p.signedNumeral with
  | some numeral => Run.fail (p.invalidPosition numeral)
  | none =>
    match p.peek with
    | .word (.plain word) =>
      match Numeral.shape word.toList with
      | some .int =>
        match parseUsize word.toList with
        | some n =>
          advance
          pure (.position n)
        | none => Run.fail (p.invalidPosition word)
      | some .float => Run.fail (p.invalidPosition word)
      | none =>
        advance
        pure (.label word)
    | .word (.path word) =>
      Run.fail ((p.error "a path is not an index key; quote a field name").withHint
        s!"quote it: `$r['{word}']`")
    | .word (.tilde path) =>
      Run.fail ((p.error "a tilde word is not an index key; quote a field name").withHint
        ("quote it: `$r['" ++ path.toLiteral ++ "']`"))
    | .singleQuoted label =>
      advance
      pure (.label label)
    | .doubleQuoted parts =>
      advance
      let tree ← parseInterpolationParts d parts
      pure (keyOf tree)
    | .tag label => Run.fail (p.invalidTagKey label)
    | _ =>
      let tree ← parseWord d
      pure (.data tree)

def parsePostfix : Parse (Spanned (IndexKey Ast)) :=
  spanned do
    advance
    let p ← Run.get
    if p.peek.is .rBracket then
      Run.fail (p.error "an index needs a key: `$x[name]` or `$x[0]`")
    else
      let key ← parseIndexKey d
      expect .rBracket
      pure key

/-- `atom = primary ('[' index-key ']')*`. A run of postfix keys becomes one flat index, never a
nest of single-key ones. `$(name)` takes none, forced or not. -/
def atomUnchecked : Parse Ast := do
  let p ← Run.get
  let node ← captureSpan d.parsePrimary
  if p.atDelimitedName then pure node.2
  else
    let keys ← loop (fun keys => do
      let q ← Run.get
      if q.peek.is .lBracket && q.nextTokenIsAdjacent then
        let key ← parsePostfix d
        pure (.again (keys ++ [key]))
      else pure (.done keys)) []
    if keys.isEmpty then pure node.2 else pure (.index ⟨node.1, node.2⟩ keys)

end Parse

end Ral.Syntax
