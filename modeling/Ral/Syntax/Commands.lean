import Ral.Syntax.Brackets

/-! # Commands

Redirects, command heads, and the control operators with their operands and options.
-/

namespace Ral.Syntax
open Ir (Redirects StdinSource StderrTarget)

def noOrOr : String :=
  "ral has no `||`: `a ? b` runs `b` when `a` fails; inside " ++
    "`$[…]`, `||` is the Boolean connective"

/-! ## Redirects -/

/-- An I/O redirect onto one of the three streams. -/
inductive Redirect (α : Type)
  | stdin (source : StdinSource α)
  | stdout (mode : Ir.WriteMode) (target : α)
  | stderr (mode : Ir.WriteMode) (target : α)
  | stderrToStdout

def WriteMode.toIr : WriteMode → Ir.WriteMode
  | .write => .write
  | .append => .append
  | .stream => .stream

/-- Attach the operand to its stream. Stderr streams: staging diagnostics would withhold them. -/
def redirectWord {α : Type} (op : RedirectOp) (word : α) : Redirect α :=
  match op with
  | .read => .stdin (.file word)
  | .hereString => .stdin (.here word)
  | .stdout mode => .stdout mode.toIr word
  | .stderr .write => .stderr .stream word
  | .stderr mode => .stderr mode.toIr word

def redirectNeedsATarget : RedirectOp → String
  | .stdout _ => "`>` needs a file to write to"
  | .stderr _ => "`>` needs a file to write to"
  | .read => "`<` needs a file to read"
  | .hereString => "`<<` needs a string to feed"

def noRedirects {α : Type} : Redirects α := ⟨none, none, none⟩

def bindRedirect {α : Type} (into : Redirects α) : Redirect α → Except String (Redirects α)
  | .stdin source =>
    match into.stdin with
    | none => .ok { into with stdin := some source }
    | some _ => .error ("standard input is fed twice; which one do you mean? " ++
        "A command reads from one source.")
  | .stdout mode target =>
    match into.stdout with
    | none => .ok { into with stdout := some (mode, target) }
    | some _ => .error ("standard output is redirected twice; which one do you mean? " ++
        "To write to both files, pipe through `tee`.")
  | .stderr mode target =>
    match into.stderr with
    | none => .ok { into with stderr := some (.file mode target) }
    | some (.file _ _) => .error "standard error is redirected twice; which one do you mean?"
    | some .stdout => .error ("standard error is redirected twice: `2>&1` already sends it " ++
        "with standard output; which one do you mean?")
  | .stderrToStdout =>
    match into.stderr with
    | none => .ok { into with stderr := some .stdout }
    | some (.file _ _) => .error ("standard error is redirected twice: `2>&1` would override " ++
        "the `2>` before it; which one do you mean?")
    | some .stdout => .error "`2>&1` is written twice; write it once"

def hereWord {α : Type} (isWord : α → Option Word) : Redirect α → Option String
  | .stdin (.here tree) => (isWord tree).map fun
      | .plain _ => Lex.noHeredocs
      | _ => "`<<` feeds a string to stdin, not a file: " ++ "to read a file into stdin, use `< path`"
  | _ => none

def Ast.asWord : Ast → Option Word
  | .word w => some w
  | _ => none

namespace Parse
variable (d : Descent)

def parseRedirect : Parse (Redirect Ast) := do
  let p ← Run.get
  match p.peek with
  | .stderrToStdout =>
    advance
    pure .stderrToStdout
  | .redirect op =>
    advance
    let q ← Run.get
    if q.atCmdEnd then Run.fail (.new (some p.span) (redirectNeedsATarget op))
    else
      let word ← captureSpan (parseWord d)
      match hereWord Ast.asWord (redirectWord op word.2) with
      | some message => Run.fail (.new (some word.1) message)
      | none =>
        endUnit d word.1
        pure (redirectWord op word.2)
  | _ => Run.fail (p.error "expected redirect")

def parseRedirectInto (into : Redirects Ast) : Parse (Redirects Ast) := do
  let redirect ← captureSpan (parseRedirect d)
  match bindRedirect into redirect.2 with
  | .ok into => pure into
  | .error m => Run.fail (.new (some redirect.1) m)

def collectTrailingRedirects : Parse (Redirects Ast) :=
  loop (fun redirects => do
    let p ← Run.get
    if !p.atCmdEnd && p.atRedirect then
      let redirects ← parseRedirectInto d redirects
      pure (.again redirects)
    else pure (.done redirects)) noRedirects

/-! ## Commands -/

def headOf : Ast → Head Ast
  | .word (.path s) => .path s
  | .word (.plain s) => if isLiteral s then .value (.word (.plain s)) else .bare s
  | .word (.tilde path) => if path.suffix.isSome then .tildePath path else .value (.word (.tilde path))
  | other => .value other

def parseHead : Parse (Head Ast) := do
  let caret ← eat .caret
  if caret then
    let p ← Run.get
    attached "`^` attaches to the name it marks: write `^ls`"
    match p.peek with
    | .word (.plain name) =>
      advance
      let q ← Run.get
      endUnit d (p.prevByteSpan.join q.prevByteSpan)
      pure (.externalName name)
    | .word _ => Run.fail (p.error "'^' expects a bare command name, not a path")
    | _ => Run.fail (p.error "expected bare command name after '^'")
  else
    let p ← Run.get
    let atom ← parseAtom d
    match p.peek with
    | .expr _ => pure (.value atom)
    | _ => pure (headOf atom)

/-- Why nothing begins a command here. -/
def headless (p : Parser) : Option String :=
  if p.peek.is .pipe then
    if (p.peekAt 1).is .pipe then some noOrOr else some "a pipeline needs a command before `|`"
  else if p.peek.is .question then some "`?` needs a command before it to fall back from"
  else none

/-- `command = head (arg | redir)*`. A value head with nothing applied sheds the call. -/
def parseCommand : Parse (Ast × Redirects Ast) := do
  let p ← Run.get
  if p.atRedirect then Run.fail (p.error "redirect must follow a command")
  else
    match headless p with
    | some message => Run.fail (p.error message)
    | none =>
      let head ← spanned (parseHead d)
      let (args, redirects) ← loop (fun parts => do
        let q ← Run.get
        if q.atCmdEnd then pure (.done parts)
        else if q.atRedirect then
          let redirects ← parseRedirectInto d parts.2
          pure (.again (parts.1, redirects))
        else
          let arg ← spanned (parseArg d)
          pure (.again (parts.1 ++ [arg], parts.2))) (([] : List (Spanned Ast)), noRedirects)
      match args, head.item with
      | [], .value value => pure (value, redirects)
      | args, _ => pure (.call head args, redirects)

end Parse

/-! ## Operands -/

/-- A control operator's operands: how many it takes, what they are, and how many have been
read. -/
structure Form where
  name : String
  desc : String
  min : ℕ
  arity : ℕ
  seen : ℕ

namespace Form

def elastic (name desc : String) (min arity : ℕ) : Form := ⟨name, desc, min, arity, 0⟩

def new (name desc : String) (arity : ℕ) : Form := elastic name desc arity arity

def arityError (form : Form) (got : ℕ) : String :=
  let args := if form.min = form.arity then Data.plural form.arity "argument"
    else toString form.min ++ " or " ++ toString form.arity ++ " arguments"
  form.name ++ " requires " ++ args ++ " (" ++ form.desc ++ "); got " ++ toString got

def written (form : Form) (sample : String) : String :=
  "`" ++ form.name ++ "` takes its options written in its own bracket. The values may be " ++
    "bound (`" ++ form.name ++ " [" ++ sample ++ "]`) but the option names are written here, " ++
    "the way `case` writes its arms."

/-- How handler arms are to be written. -/
def spelling (form : Form) : String :=
  "write the arms out (`" ++ form.name ++ " [handlers: [deploy: \x7b |args| … \x7d]] …`) " ++
    "since each name is bound in the body"

end Form

def armsOf (form : Form) : List (HandlerArm Ast) → List (RecordEntry Ast) →
    Except ParseError (List (HandlerArm Ast))
  | arms, [] => .ok arms
  | arms, .field key value :: entries =>
    if arms.any fun arm => arm.name == key.item then
      .error (.new (some value.span) ("`" ++ key.item ++ "` already has an arm; one name, one arm"))
    else armsOf form (arms ++ [⟨key.item, value⟩]) entries
  | _, .spread base :: _ =>
    .error (.new (some base.span) ("`handlers:` spreads no other table; " ++ form.spelling))

def handlerArms (form : Form) (value : Spanned Ast) : Except ParseError (List (HandlerArm Ast)) :=
  match value.item with
  | .list [] => armsOf form [] []
  | .record entries => armsOf form [] entries
  | .map [] => .error (.new (some value.span)
      ("the empty handler set is `handlers: []`; `[:]` is a map, " ++ "and an arm's name is not data"))
  | .map _ => .error (.new (some value.span) ("`handlers:` takes named arms, not a map; " ++ form.spelling))
  | _ => .error (.new (some value.span) ("`handlers:` is an arm list, not a value; " ++ form.spelling))

def optionsOf (form : Form) (arms : Bool) (sample : String) :
    Options Ast → Option (List (HandlerArm Ast)) → List CollectionItem →
      Except ParseError (Options Ast × Option (List (HandlerArm Ast)))
  | options, handlers, [] => .ok (options, handlers)
  | _, _, .spread base :: _ => .error (.new (some base.span) (form.written sample))
  | options, handlers, .entry (.label key) value :: items =>
    if arms && key.item == "handlers" then
      if handlers.isSome then
        .error (.new (some value.span) "`handlers:` is written once; put every arm in the one list")
      else (handlerArms form value).bind fun read => optionsOf form arms sample options (some read) items
    else if options.any fun seen => seen.1 == key.item then
      .error (.new (some value.span) ("`" ++ key.item ++ "` is written twice in `" ++ form.name ++
        "`'s options; write it once"))
    else optionsOf form arms sample (options ++ [(key.item, value)]) handlers items
  | _, _, .entry (.data key) _ :: _ =>
    .error (.new (some key.span) ("`" ++ form.name ++
      "`'s options are named in writing, so a key that is data " ++
      "(`\"…$x…\"` or `$var`) cannot be one; write the name out, as in " ++
      "`" ++ form.name ++ " [" ++ sample ++ "]`"))
  | _, _, .elem item :: _ =>
    .error (.new (some item.span) ("`" ++ form.name ++ "` takes `option: value` entries (" ++
      form.desc ++ "); " ++ "this one has no name"))

namespace Parse
variable (d : Descent)

def operandSlot (form : Form) : Parse Form := do
  let p ← Run.get
  if p.atCmdEnd || p.atRedirect then Run.fail (p.error (form.arityError form.seen))
  else if p.peek.is .spread then
    Run.fail (p.error ("`" ++ form.name ++ "` takes its operands by position (" ++ form.desc ++ "); " ++
      "a spread `...` has no meaning here"))
  else pure { form with seen := form.seen + 1 }

def operand (form : Form) : Parse (Ast × Form) := do
  let form ← operandSlot form
  let tree ← parseAtom d
  pure (tree, form)

def noMoreOperands (form : Form) : Parse Unit := do
  let p ← Run.get
  if p.atCmdEnd || p.atRedirect then pure ()
  else Run.fail (p.error (form.arityError (form.arity + 1)))

/-- A form's option bracket, which is the form's syntax and not a collection literal. -/
def parseOptions (form : Form) (arms : Bool) (sample : String) :
    Parse (Options Ast × Option (List (HandlerArm Ast))) := do
  let p ← Run.get
  if !p.peek.is .lBracket then Run.fail (p.error (form.written sample))
  else
    advance
    let empty ← eat .rBracket
    let q ← Run.get
    if empty then
      endUnit d (p.span.join q.prevByteSpan)
      pure ([], none)
    else if q.peek.is .colon then
      Run.fail (q.error ("`" ++ form.name ++ "` takes its options by name (" ++ form.desc ++
        "), so `[:]` (a map, " ++ "whose keys are data) names none of them; write `[]` for no options"))
    else
      let items ← parseItems d .options
      let r ← Run.get
      endUnit d (p.span.join r.prevByteSpan)
      Run.ofExcept (optionsOf form arms sample [] none items)

def twoOperands (form : Form) : Parse (Ast × Ast) := do
  let (first, form) ← operand d form
  let (second, form) ← operand d form
  noMoreOperands form
  pure (first, second)

def oneOperand (form : Form) : Parse Ast := do
  let (tree, form) ← operand d form
  noMoreOperands form
  pure tree

def optionsOperand (form : Form) (arms : Bool) (sample : String) :
    Parse ((Options Ast × Option (List (HandlerArm Ast))) × Ast) := do
  let form ← operandSlot form
  let options ← parseOptions d form arms sample
  let (body, form) ← operand d form
  noMoreOperands form
  pure (options, body)

def spawnOperands (form : Form) : Parse (Option (Spanned Ast) × Ast) := do
  let form ← operandSlot form
  let first ← captureSpan (parseAtom d)
  let p ← Run.get
  if p.atCmdEnd || p.atRedirect then
    noMoreOperands form
    pure (none, first.2)
  else
    let (body, form) ← operand d form
    noMoreOperands form
    pure (some ⟨first.1, first.2⟩, body)

def parseControlOp (name : String) : Parse Ast := do
  advance
  if name = "try" then
    let (body, handler) ← twoOperands d (.new "try" "body, handler" 2)
    pure (.scope (.try' body handler))
  else if name = "guard" then
    let (body, cleanup) ← twoOperands d (.new "guard" "body, cleanup" 2)
    pure (.scope (.guard body cleanup))
  else if name = "within" then
    let (options, body) ← optionsOperand d (.new "within" "options, body" 2) true "dir: $d"
    pure (.scope (.within options.1 options.2 body))
  else if name = "grant" then
    let (options, body) ← optionsOperand d (.new "grant" "capabilities, body" 2) false "net: $n"
    pure (.scope (.grant options.1 body))
  else if name = "audit" then
    let body ← oneOperand d (.new "audit" "body" 1)
    pure (.scope (.audit body))
  else if name = "spawn" then
    let (title, body) ← spawnOperands d (.elastic "spawn" "a body, or a title and the body" 1 2)
    pure (.scope (.spawn title body))
  else if name = "gather" then
    let body ← oneOperand d (.new "gather" "body" 1)
    pure (.scope (.gather body))
  -- Only a control operator reaches here.
  else Run.stuck

end Parse

end Ral.Syntax
