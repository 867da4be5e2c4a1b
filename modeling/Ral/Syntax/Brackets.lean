import Ral.Syntax.Atoms

/-! # Brackets

The comma-separated items of a bracket, and what is read that way: patterns, list, record and
map literals.
-/

namespace Ral.Syntax
open Ir (Pattern)

/-- Keep going after this item, or treat it as the last one. -/
inductive SepFlow
  | cont
  | stop

/-- The bracket being read. -/
inductive Bracketed
  | collection
  | options
  | caseArms
  | listPattern
  | recordPattern

namespace Bracketed

def item : Bracketed → String
  | .collection => "entry"
  | .recordPattern => "entry"
  | .options => "option"
  | .caseArms => "`case` arm"
  | .listPattern => "element"

def example' : Bracketed → String
  | .collection => "`[a, b]` or `[a: 1, b: 2]`"
  | .options => "`[a: 1, b: 2]`"
  | .caseArms => "[`ok: \x7b |v| … \x7d, `err: \x7b |e| … \x7d]"
  | .listPattern => "`[x, y]`"
  | .recordPattern => "`[a: x, b: y]`"

end Bracketed

mutual

def patternNames : Pattern → List String
  | .wildcard => []
  | .name n => [n]
  | .list elems rest => elemNames elems ++ rest.toList
  | .record entries => entryNames entries

def elemNames : List Pattern → List String
  | [] => []
  | p :: ps => patternNames p ++ elemNames ps

def entryNames : List (String × Pattern) → List String
  | [] => []
  | (_, p) :: ps => patternNames p ++ entryNames ps

end

def firstRepeat : List String → List String → Option String
  | _, [] => none
  | seen, n :: names => if seen.contains n then some n else firstRepeat (n :: seen) names

def duplicateName (pattern : Pattern) : Option String := firstRepeat [] (patternNames pattern)

namespace Parse
variable {α : Type} (d : Descent)

/-- The items of a bracket whose `[` is consumed, up to and including its `]`, with a trailing
comma allowed. -/
def parseBracketItems (what : Bracketed) (item : α → Parse (SepFlow × α)) (acc : α) : Parse α :=
  loop (fun acc => do
    let closed ← eat .rBracket
    if closed then pure (.done acc)
    else
      let p ← Run.get
      if p.peek.is .comma then
        Run.fail ((p.error ("this `,` follows no " ++ what.item)).withHint "remove the extra `,`")
      else
        let (flow, acc) ← item acc
        match flow with
        | .cont =>
          let comma ← eat .comma
          let q ← Run.get
          if !comma && !q.peek.is .rBracket then
            Run.fail ((q.error ("expected `,` or `]` after the " ++ what.item)).withHint
              ("separate each " ++ what.item ++ " from the next with `,`, as in " ++ what.example'))
          else pure (.again acc)
        | .stop =>
          let _ ← eat .comma
          expect .rBracket
          pure (.done acc)) acc

/-! ## Patterns -/

/-- A written field name. -/
def parseStaticKey : Parse String := do
  let p ← Run.get
  let missing := (p.error "expected a key").withHint
    "a key is a name, a 'quoted string' or a \"string\", as in `[name: x]`"
  match p.peek with
  | .word (.plain k) =>
    if isIdent k then
      advance
      pure k
    else Run.fail missing
  | .singleQuoted k =>
    advance
    pure k
  | .doubleQuoted parts =>
    match constantString parts with
    | some key =>
      advance
      pure key
    | none => Run.fail (p.error "a pattern's key is written out; \"…$x…\" is computed")
  | .tag label => Run.fail (p.invalidTagKey label)
  | _ => Run.fail missing

/-- The name after `...`, which takes the remaining elements. -/
def parseRest : Parse String := do
  attached spreadAttaches
  let p ← Run.get
  match p.peek with
  | .word (.plain name) =>
    if isReserved name then Run.fail (p.error (reservedKeywordMessage name))
    else if !isIdent name then
      Run.fail ((p.error "a rest pattern binds a plain name").withHint
        "write a name after the dots, as in `...rest`")
    else
      advance
      let q ← Run.get
      if q.peek.is .rBracket || q.peek.is .comma && (q.peekAt 1).is .rBracket then pure name
      else Run.fail ((q.error "`...rest` takes the remaining elements, so it comes last").withHint
        "move it to the end: `[x, ...rest]`")
  | _ => Run.fail ((p.error "`...` in a pattern needs a name after it").withHint
      "name the rest: `[x, ...rest]`")

def parseListPattern : Parse Pattern := do
  let items ← parseBracketItems .listPattern (fun items => do
    let spread ← eat .spread
    if spread then
      let name ← parseRest
      pure (.stop, (items.1, some name))
    else
      let elem ← d.parsePattern
      let p ← Run.get
      if p.peek.is .pipe then
        Run.fail ((p.error "`|` does not split a list pattern").withHint
          "bind the rest with `...`, as in `[head, ...rest]`")
      else pure (.cont, (items.1 ++ [elem], items.2))) (([] : List Pattern), (none : Option String))
  pure (.list items.1 items.2)

def parseRecordPattern : Parse Pattern := do
  let entries ← parseBracketItems .recordPattern (fun entries => do
    let key ← captureSpan parseStaticKey
    if entries.any fun e => e.1 == key.2 then
      Run.fail ((ParseError.new (some key.1) ("this pattern binds '" ++ key.2 ++ "' twice")).withHint
        ("a record has one value per field: keep whichever '" ++ key.2 ++ "' you meant"))
    else
      expect .colon
      let pattern ← d.parsePattern
      pure (.cont, entries ++ [(key.2, pattern)])) ([] : List (String × Pattern))
  pure (.record entries)

def parsePatternInner : Parse Pattern := do
  expect .lBracket
  let empty ← eat .rBracket
  if empty then pure (.list [] none)
  else
    let p ← Run.get
    if p.keyColonHere .label then parseRecordPattern d else parseListPattern d

def patternBody : Parse Pattern := do
  let p ← Run.get
  let expected := p.gluedEquals.getD (p.error ("expected a pattern: a name like `x`, `_` to ignore, " ++
    "or a destructuring `[a, b]` / `[host: h, port: p]`"))
  match p.peek with
  | .lBracket => parsePatternInner d
  | .word (.plain name) =>
    if name == "_" then
      advance
      pure .wildcard
    else if isReserved name then Run.fail (p.error (reservedKeywordMessage name))
    else if isIdent name then
      advance
      pure (.name name)
    else Run.fail expected
  | _ => Run.fail expected

def parseBinder : Parse (Spanned Pattern) := do
  let pattern ← captureSpan d.parsePattern
  match duplicateName pattern.2 with
  | some name => Run.fail (.new (some pattern.1) s!"pattern binds `{name}` more than once")
  | none => pure ⟨pattern.1, pattern.2⟩

/-! ## Items -/

end Parse

/-- A literal's key before its entry is built. -/
inductive MapKeyForm
  | label (key : Spanned String)
  | data (key : Spanned Ast)

def MapKeyForm.intoAst : MapKeyForm → Spanned Ast
  | .label key => ⟨key.span, .literal key.item⟩
  | .data key => key

/-- One item of a bracketed literal, read before the literal's shape is known. -/
inductive CollectionItem
  | spread (tree : Spanned Ast)
  | elem (tree : Spanned Ast)
  | entry (key : MapKeyForm) (value : Spanned Ast)

namespace Parse
variable (d : Descent)

def parseMapKey : Parse MapKeyForm := do
  let p ← Run.get
  let missing := (p.error "expected a key").withHint
    "a key is a name, a 'quoted string', a \"string\" or `$var`, as in `[name: 1]`"
  let written : Parse MapKeyForm := do
    let key ← spanned parseStaticKey
    pure (.label key)
  match p.peek with
  | .doubleQuoted parts =>
    if (constantString parts).isNone then
      let key ← spanned do
        advance
        parseInterpolationParts d parts
      pure (.data key)
    else written
  | .singleQuoted _ => written
  | .tag _ => written
  | .word (.plain k) =>
    if isIdent k then written
    else if isLiteral k then
      Run.fail ((p.error s!"`{k}` is a number, and a key is a name or a string").withHint
        s!"quote it: `'{k}': value`")
    else Run.fail missing
  | .variable name _ =>
    let key ← spanned do
      advance
      pure (Ast.variable name)
    pure (.data key)
  | _ => Run.fail missing

/-- An entry is one atom: a command written as one is refused with the readings it may have
meant. -/
def parseEntryValue : Parse (Spanned Ast) := do
  let first ← Run.get
  let value ← captureSpan (parseAtom d)
  let p ← Run.get
  if !p.peek.continuesCommand then pure ⟨value.1, value.2⟩
  else
    match first.tokens[first.pos]? with
    | none => Run.stuck
    | some l =>
      let entry := value.1.join p.entryEnd
      Run.fail { ParseError.new (some entry) "an entry is one value, and `,` separates entries" with
        kind := .entryRuns entry value.1 (.of l.token) }

def parseCollectionItem : Parse CollectionItem := do
  let spread ← eat .spread
  if spread then
    attached spreadAttaches
    let value ← parseEntryValue d
    pure (.spread value)
  else
    let p ← Run.get
    if p.keyColonHere .data then
      let key ← parseMapKey d
      expect .colon
      let q ← Run.get
      if q.peek.is .comma || q.peek.is .rBracket then
        Run.fail ((ParseError.new (some q.prevByteSpan) "this key has no value after its `:`").withHint
          "write the value after the `:`, as in `[name: 1]`")
      else
        let value ← parseEntryValue d
        pure (.entry key value)
    else
      match p.peek with
      | .word (.plain word) =>
        if word.toList.getLast? = some ':' ∧ p.touchesNext then
          Run.fail ((p.error s!"`{word}` is one word").withHint
            ("for the key `" ++ String.ofList word.toList.dropLast ++
              "`, put a space after the colon: `" ++ String.ofList word.toList.dropLast ++ ": value`"))
        else
          let value ← parseEntryValue d
          pure (.elem value)
      | _ =>
        let value ← parseEntryValue d
        pure (.elem value)

end Parse

/-! ## Literals -/

/-- An entry without a key among entries with one. -/
def unkeyedEntry (at' : Span) : ParseError :=
  (ParseError.new (some at') "this entry has no key, but others in the same `[ ]` do").withHint
    "give it one, as in `name: value`, or drop every key to make a list"

/-- A bracket literal as its items arrive. -/
inductive Literal
  | list (elems : List (ListElem Ast))
  | record (entries : List (RecordEntry Ast))
  | map (entries : List (MapEntry Ast))

def liftElems : List (ListElem Ast) → Except ParseError (List (RecordEntry Ast))
  | [] => .ok []
  | .spread a :: elems => (liftElems elems).map (.spread a :: ·)
  | .single a :: _ => .error (unkeyedEntry a.span)

def liftEntry : RecordEntry Ast → MapEntry Ast
  | .spread a => .spread a
  | .field key value => .entry ⟨key.span, .literal key.item⟩ value

/-- Each item lifts the literal to at least its own kind along list < record < map. -/
def Literal.push : Literal → CollectionItem → Except ParseError Literal
  | .list elems, .elem a => .ok (.list (elems ++ [.single a]))
  | .list elems, .spread a => .ok (.list (elems ++ [.spread a]))
  | .list elems, .entry (.label key) value =>
    (liftElems elems).map fun items => .record (items ++ [.field key value])
  | .list elems, .entry (.data key) value =>
    (liftElems elems).map fun items => .map (items.map liftEntry ++ [.entry key value])
  | .record items, .spread a => .ok (.record (items ++ [.spread a]))
  | .record items, .entry (.label key) value => .ok (.record (items ++ [.field key value]))
  | .record items, .entry (.data key) value => .ok (.map (items.map liftEntry ++ [.entry key value]))
  | .record _, .elem a => .error (unkeyedEntry a.span)
  | .map _, .elem a => .error (unkeyedEntry a.span)
  | .map entries, .spread a => .ok (.map (entries ++ [.spread a]))
  | .map entries, .entry key value => .ok (.map (entries ++ [.entry key.intoAst value]))

def spreadsFrom : ℕ → List (RecordEntry Ast) → List (ℕ × Spanned Ast)
  | _, [] => []
  | i, .spread a :: entries => (i, a) :: spreadsFrom (i + 1) entries
  | i, .field _ _ :: entries => spreadsFrom (i + 1) entries

def recordLiteral (entries : List (RecordEntry Ast)) : Except ParseError Ast :=
  match spreadsFrom 0 entries with
  | _ :: (_, second) :: _ =>
    .error ((ParseError.new (some second.span)
      "a record can be written over one other record, not two").withHint
      ("write out the fields you need from this one, as in " ++
        "`[...$base, y: $other[y]]`, or merge them in a block"))
  | [(i, spread)] =>
    if 0 < i then
      .error ((ParseError.new (some spread.span) "a record's spread comes first").withHint
        "move it before the fields: `[...$r, k: v]`")
    else .ok (.record entries)
  | [] => .ok (.record entries)

def Literal.intoAst : Literal → Except ParseError Ast
  | .list elems => .ok (.list elems)
  | .record entries => recordLiteral entries
  | .map entries => .ok (.map entries)

namespace Parse
variable (d : Descent)

def parseItems (what : Bracketed) : Parse (List CollectionItem) :=
  parseBracketItems what (fun items => do
    let item ← parseCollectionItem d
    pure (.cont, items ++ [item])) []

def parseOpening : Parse (Option Ast × Literal) := do
  let colon ← eat .colon
  if colon then
    let empty ← eat .rBracket
    if empty then pure (some (.map []), .map [])
    else
      let comma ← eat .comma
      let p ← Run.get
      if !comma then
        Run.fail (p.error ("`[:]` is the empty map; a map on keys written out opens with `[:,`, " ++
          "as in `[:, a: 1, b: 2]`"))
      else if p.peek.is .rBracket then Run.fail (p.error "write [:] for the empty map")
      else pure (none, .map [])
  else pure (none, .list [])

/-- Written keys make a record; a computed key or `[:,` makes a map. -/
def parseCollection : Parse Ast := do
  expect .lBracket
  let empty ← eat .rBracket
  if empty then pure (.list [])
  else
    let (whole, initial) ← parseOpening
    match whole with
    | some tree => pure tree
    | none =>
      let items ← parseItems d .collection
      Run.ofExcept ((items.foldlM Literal.push initial).bind Literal.intoAst)

end Parse

end Ral.Syntax
