import Mathlib.Data.List.Defs
import Mathlib.Data.Nat.Notation
import Mathlib.Data.String.Basic

/-! # The intermediate representation

Call-by-push-value terms: a value is inert data, a computation has effects. A
computation has the span elaboration gave it, `none` for generated code. What a
node mentions is a function of the node (`Mentions`) and no field of it.
-/

namespace Ral.Ir

abbrev Name := String

/-- A binder only the compiler writes: no source text can name it. -/
def synthetic (tag : String) (n : ℕ) : Name := s!"%{tag}{n}"

/-- A source range, in the file of that identity. -/
structure Span where
  file : ℕ
  start : ℕ
  stop : ℕ
  deriving DecidableEq

/-! ## Patterns, heads and redirects -/

/-- There is no alternative to fall through to: a mismatch is an error. -/
inductive Pattern
  | wildcard
  | name (n : Name)
  | list (elems : List Pattern) (rest : Option Name)
  | record (entries : List (String × Pattern))

/-- `~` or `~/sub`, the suffix stored with the separator it was written with. -/
structure TildePath where
  suffix : Option String
  deriving DecidableEq

/-- The head word of a command, in the shape the source wrote it. -/
inductive CommandName
  | bare (name : Name)
  | path (p : String)
  | tildePath (p : TildePath)
  deriving DecidableEq

inductive CommandWord
  /-- Resolved at evaluation time: environment, then handlers, then external. -/
  | name (head : CommandName)
  | external (head : CommandName)
  deriving DecidableEq

def CommandWord.head : CommandWord → CommandName
  | .name head => head
  | .external head => head

inductive WriteMode
  | write
  | append
  | stream
  deriving DecidableEq

inductive StdinSource (α : Type)
  | file (path : α)
  | here (text : α)

inductive StderrTarget (α : Type)
  | file (mode : WriteMode) (path : α)
  /-- `2>&1`. -/
  | stdout

/-- A redirect list, checked: each stream is bound at most once. -/
structure Redirects (α : Type) where
  stdin : Option (StdinSource α)
  stdout : Option (WriteMode × α)
  stderr : Option (StderrTarget α)

def Redirects.isEmpty {α : Type} (r : Redirects α) : Bool :=
  r.stdin.isNone && r.stdout.isNone && r.stderr.isNone

/-! ## Boundary sites -/

inductive GradeShape
  | value
  | output
  | free (var : ℕ)
  deriving DecidableEq

/-- The shape of one node of a frozen type; a number is another node of it. -/
inductive Shape
  | unit
  | bytes
  | bool
  | int
  | float
  | string
  | list (elem : ℕ)
  | map (elem : ℕ)
  | handle (grade : GradeShape) (payload : ℕ)
  | record (labels : List (String × ℕ)) (closed : Bool)
  | variant (labels : List (String × ℕ)) (closed : Bool)
  | thunk (body : ℕ)
  | free (var : ℕ)
  | result (grade : GradeShape) (value : ℕ)
  | fn (arg rest : ℕ)
  | freeComp
  deriving DecidableEq

/-- A checked boundary's type, frozen: a graph and where in it the type starts. -/
structure Site where
  nodes : List Shape
  root : ℕ
  deriving DecidableEq

/-- The same graph, read from another node. -/
def Site.project (s : Site) (root : ℕ) : Site := { s with root }

def Site.shape (s : Site) : Shape := s.nodes.getD s.root .unit

/-! ## Terms -/

inductive ArithOp
  | add
  | sub
  | mul
  | div
  | mod
  deriving DecidableEq

inductive CompareOp
  | lt
  | gt
  | le
  | ge
  deriving DecidableEq

inductive EqOp
  | eq
  | ne
  deriving DecidableEq

inductive BinaryOp
  | arith (op : ArithOp)
  | compare (op : CompareOp)
  | eq (op : EqOp)
  deriving DecidableEq

/-- A finite float, by its bits. -/
structure Finite where
  bits : ℕ
  deriving DecidableEq

/-- What the machine reads of a builtin's declaration; two are one builtin when
their names are. -/
structure BuiltinEntry where
  name : String
  fixedArity : ℕ
  boundary : Bool
  deriving DecidableEq

mutual

inductive Val
  | unit
  | string (s : String)
  | int (n : Int)
  | float (f : Finite)
  | bool (b : Bool)
  | variable (name : Name)
  | thunk (body : Comp)
  /-- A plain list literal: no spread. -/
  | list (elems : List Val)
  /-- Static labels, no spread; entries sorted by key, stably. -/
  | record (entries : List (Name × Val))
  /-- Keys written out, no spread; entries sorted by key, stably. -/
  | map (entries : List (Name × Val))
  | variant (label : Name) (payload : Val)
  | protect (value : Val) (site : Site)

inductive Key
  | label (text : String)
  | position (index : ℕ)
  | data (value : Val)

inductive ValListElem
  | single (value : Val)
  | spread (value : Val)

inductive MapEntryV
  | entry (key value : Val)
  | spread (value : Val)

/-- A fixed operation on values: nothing runs inside it; it may fail. -/
inductive Prim
  | binary (op : BinaryOp) (lhs rhs : Val)
  | negate (value : Val)
  | not (value : Val)
  | render (value : Val)
  | concat (parts : List Val)
  | decode (value : Val)
  | index (target : Val) (key : Key)
  | update (base : Val) (fields : List (Name × Val))
  | list (elems : List ValListElem)
  | map (entries : List MapEntryV)

inductive Comp
  | mk (span : Option Span) (kind : CompKind)

inductive CompKind
  | ret (value : Val)
  | force (value : Val)
  | lam (param : Name) (body : Comp)
  | app (head : Comp) (args : List Val)
  | bind (comp : Comp) (pattern : Pattern) (rest : Comp)
  | seq (first rest : Comp)
  | recur (group : List (Name × Comp)) (index : ℕ)
  | ite (cond then' else' : Val)
  | case (scrutinee : Val) (arms : List (Name × Val))
  | attempt (body handler : Val)
  | guard (body cleanup : Val)
  | capture (body : Comp)
  | prim (prim : Prim)
  | exec (head : CommandWord) (argv : List ValListElem) (redirects : Redirects Val)
      (site : Option Site)
  | pipeline (stages : List Comp)
  | redirect (body : Comp) (redirects : Redirects Val)
  | within (opts : List (Name × Val)) (handlers : Option (List (Name × Val))) (body : Val)
  | grant (caps : List (Name × Val)) (body : Val)
  | spawn (title : Option Val) (body : Val)
  | gather (body : Val)
  | audit (body : Val)
  | tilde (path : TildePath)
  | protect (body : Comp) (site : Site)
  /-- A builtin run on the values the arguments name: the body of a native's code. -/
  | native (entry : BuiltinEntry) (args : List Val)

end

/-- A computation with no span of its own. -/
def Comp.synthetic (kind : CompKind) : Comp := .mk none kind

mutual

/-- Whether this code opens with a λ, through a recursive projection. -/
def Comp.isLam : Comp → Bool
  | .mk _ kind => kind.isLam

def CompKind.isLam : CompKind → Bool
  | .lam _ _ => true
  | .recur group index => memberIsLam group index
  | _ => false

def memberIsLam : List (Name × Comp) → ℕ → Bool
  | [], _ => false
  | (_, member) :: _, 0 => member.isLam
  | _ :: rest, index + 1 => memberIsLam rest index

end

/-! ## What a node mentions

Every name a node mentions, bound or free, taken branch or not. A node's own
`occ` is that list sorted, each name once.
-/

def CommandWord.mentions (w : CommandWord) : List Name :=
  match w.head with
  | .bare n => [n]
  | .path _ => []
  | .tildePath _ => []

mutual

def Val.mentions : Val → List Name
  | .unit => []
  | .string _ => []
  | .int _ => []
  | .float _ => []
  | .bool _ => []
  | .variable name => [name]
  | .thunk body => body.mentions
  | .list elems => itemsMention elems
  | .record entries => fieldsMention entries
  | .map entries => fieldsMention entries
  | .variant _ payload => payload.mentions
  | .protect value _ => value.mentions

def itemsMention : List Val → List Name
  | [] => []
  | v :: vs => v.mentions ++ itemsMention vs

def fieldsMention : List (Name × Val) → List Name
  | [] => []
  | (_, v) :: es => v.mentions ++ fieldsMention es

def Key.mentions : Key → List Name
  | .label _ => []
  | .position _ => []
  | .data v => v.mentions

def ValListElem.mentions : ValListElem → List Name
  | .single v => v.mentions
  | .spread v => v.mentions

def slotsMention : List ValListElem → List Name
  | [] => []
  | e :: es => e.mentions ++ slotsMention es

def MapEntryV.mentions : MapEntryV → List Name
  | .entry key value => key.mentions ++ value.mentions
  | .spread value => value.mentions

def rowsMention : List MapEntryV → List Name
  | [] => []
  | e :: es => e.mentions ++ rowsMention es

def Prim.mentions : Prim → List Name
  | .binary _ lhs rhs => lhs.mentions ++ rhs.mentions
  | .negate v => v.mentions
  | .not v => v.mentions
  | .render v => v.mentions
  | .concat parts => itemsMention parts
  | .decode v => v.mentions
  | .index target key => target.mentions ++ key.mentions
  | .update base fields => base.mentions ++ fieldsMention fields
  | .list elems => slotsMention elems
  | .map entries => rowsMention entries

def stdinMentions : Option (StdinSource Val) → List Name
  | none => []
  | some (.file v) => v.mentions
  | some (.here v) => v.mentions

def stdoutMentions : Option (WriteMode × Val) → List Name
  | none => []
  | some (_, v) => v.mentions

def stderrMentions : Option (StderrTarget Val) → List Name
  | none => []
  | some (.file _ v) => v.mentions
  | some .stdout => []

def redirectsMention : Redirects Val → List Name
  | ⟨stdin, stdout, stderr⟩ => stdinMentions stdin ++ stdoutMentions stdout ++ stderrMentions stderr

def optionMentions : Option Val → List Name
  | none => []
  | some v => v.mentions

def armsMention : Option (List (Name × Val)) → List Name
  | none => []
  | some arms => fieldsMention arms

def Comp.mentions : Comp → List Name
  | .mk _ kind => kind.mentions

def stagesMention : List Comp → List Name
  | [] => []
  | c :: cs => c.mentions ++ stagesMention cs

def groupMentions : List (Name × Comp) → List Name
  | [] => []
  | (_, member) :: rest => member.mentions ++ groupMentions rest

def CompKind.mentions : CompKind → List Name
  | .ret v => v.mentions
  | .force v => v.mentions
  | .lam _ body => body.mentions
  | .app head args => head.mentions ++ itemsMention args
  | .bind comp _ rest => comp.mentions ++ rest.mentions
  | .seq first rest => first.mentions ++ rest.mentions
  | .recur group _ => groupMentions group
  | .ite cond then' else' => cond.mentions ++ then'.mentions ++ else'.mentions
  | .case scrutinee arms => scrutinee.mentions ++ fieldsMention arms
  | .attempt body handler => body.mentions ++ handler.mentions
  | .guard body cleanup => body.mentions ++ cleanup.mentions
  | .capture body => body.mentions
  | .prim p => p.mentions
  | .exec head argv redirects _ =>
    head.mentions ++ slotsMention argv ++ redirectsMention redirects
  | .pipeline stages => stagesMention stages
  | .redirect body redirects => body.mentions ++ redirectsMention redirects
  | .within opts handlers body => fieldsMention opts ++ armsMention handlers ++ body.mentions
  | .grant caps body => fieldsMention caps ++ body.mentions
  | .spawn title body => optionMentions title ++ body.mentions
  | .gather body => body.mentions
  | .audit body => body.mentions
  | .tilde _ => []
  | .protect body _ => body.mentions
  | .native _ args => itemsMention args

end

def insertName (n : Name) : List Name → List Name
  | [] => [n]
  | m :: ms => if n < m then n :: m :: ms else if n = m then m :: ms else m :: insertName n ms

def occ (names : List Name) : List Name := names.foldr insertName []

end Ral.Ir
