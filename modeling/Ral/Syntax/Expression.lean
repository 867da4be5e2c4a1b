import Ral.Core.Climbing
import Ral.Syntax.Parsed

/-! # Expressions as written

The body of a `$[…]` as the precedence table prescribes it: a tree that keeps its brackets and
operators, the tokens it is written in and the syntax tree it stands for.
-/

namespace Ral.Syntax

/-- The tokens between the brackets of one `$[…]`, at its span. No end mark is among them. -/
structure ExprTokens where
  span : Span
  tokens : List Lexeme
  laid : Laid span tokens
  proper : ∀ l ∈ tokens, l.token.isEof = false

/-- What the lexer reads between the brackets of a `$[…]`, however deep that nests, is such tokens. -/
theorem ExprTokens.exists_of_tokenize {rules : PathRules} {eof : EofPolicy} {source : String}
    {lexed : OpenLexemes} {stream body : List Lexeme} {span : Span}
    (h : tokenize rules eof source = some (.ok lexed)) (hwithin : Within stream lexed.tokens)
    (hmem : .mk (.expr body) span ∈ stream) :
    ∃ b : ExprTokens, b.span = span ∧ b.tokens = body := by
  obtain ⟨result, hresult, hlossless⟩ := (tokenize_total_and_lossless rules eof source).2
  rw [h] at hresult
  obtain ⟨delims, hstream⟩ := (hlossless lexed (Option.some.inj hresult).symm).covers
  obtain ⟨whole, hlaid, -⟩ := hstream.laid.within hwithin ⟨le_refl _, Nat.le_add_right _ _, le_refl _⟩
  have hsealed : Sealed body := by
    rcases tokenize_sealed h body (hwithin.expr hmem) with hself | hsealed
    · rcases tokenize_sealed h stream hwithin with rfl | hstream
      -- A stream is no token of itself.
      · have hless := List.sizeOf_lt_of_mem hmem
        rw [hself, Lexeme.mk.sizeOf_spec, Token.expr.sizeOf_spec] at hless
        omega
      · exact hstream.shut _ hmem _ .expr
    · exact hsealed
  exact ⟨⟨span, body, hlaid.expr hmem, hsealed.proper⟩, rfl, rfl⟩

/-! ## Operators -/

/-- Every operator but the lone `=`. -/
inductive Infix
  | and
  | or
  | binary (op : BinaryOp)
deriving DecidableEq

namespace Infix

def operator : Infix → Operator
  | and => .and
  | or => .or
  | binary op => .binary op

def ofOperator : Operator → Option Infix
  | .and => some and
  | .or => some or
  | .binary op => some (binary op)
  | .assign => none

def binds (op : Infix) : ℕ := precedence op.operator

def node (op : Infix) (left right : Spanned Ast) : Ast :=
  match op with
  | and => .and left right
  | or => .or left right
  | binary op => .binary left op right

end Infix

/-- Not a bare word that spells no literal. -/
def Ast.isNumeric : Ast → Bool
  | .word (.plain w) => isLiteral w
  | _ => true

/-- Arithmetic and order want numbers, equality and the connectives take anything. -/
def Infix.takes (op : Infix) (left right : Ast) : Bool :=
  match op with
  | binary (.arith _) | binary (.compare _) => left.isNumeric && right.isNumeric
  | _ => true

/-! ## Trees -/

inductive Expr
  | atom (run : List Lexeme) (value : Ast)
  | group (opened : Span) (inner : Expr) (closed : Span)
  | minus (sign : Span) (operand : Expr)
  | not (word : Span) (operand : Expr)
  | binary (left : Expr) (op : Infix) (sign : Span) (right : Expr)

namespace Expr

/-- In order. -/
def tokens : Expr → List Lexeme
  | atom run _ => run
  | group opened inner closed => .mk .lParen opened :: inner.tokens ++ [.mk .rParen closed]
  | minus sign operand => .mk (.op (.binary (.arith .sub))) sign :: operand.tokens
  | not word operand => .mk (.word (.plain "not")) word :: operand.tokens
  | binary left op sign right => left.tokens ++ .mk (.op op.operator) sign :: right.tokens

def span (e : Expr) : Span := coverAt e.tokens 0 e.tokens.length

/-- Brackets leave no node. -/
def ast : Expr → Ast
  | atom _ value => value
  | group _ inner _ => inner.ast
  | minus _ operand => .negate ⟨operand.span, operand.ast⟩
  | not _ operand => .not ⟨operand.span, operand.ast⟩
  | binary left op _ right => op.node ⟨left.span, left.ast⟩ ⟨right.span, right.ast⟩

def spanned (e : Expr) : Spanned Ast := ⟨e.span, e.ast⟩

/-- The operator that was applied last, outside all brackets. An operand has none. -/
def root : Expr → Option (Infix × Span)
  | binary _ op sign _ => some (op, sign)
  | _ => none

/-- To the left of an operator nothing binds less tightly, to its right everything binds more
tightly, and a prefix operator is applied to an operand. -/
def Ordered : Expr → Prop
  | atom _ _ => True
  | group _ inner _ => inner.Ordered
  | minus _ operand => operand.root = none ∧ operand.Ordered
  | not _ operand => operand.root = none ∧ operand.Ordered
  | binary left op _ right => left.Ordered ∧ right.Ordered ∧
      (∀ o ∈ left.root, op.binds ≤ o.1.binds) ∧ ∀ o ∈ right.root, op.binds < o.1.binds

/-! ### Leaves -/

/-- A sign and the word it touches spell a numeral, so that the sign is no operator. -/
def Fused (sign : Span) : List Lexeme → Prop
  | .mk (.word (.plain w)) at' :: _ =>
    at'.start = sign.stop ∧ (Numeral.shape (ArithOp.sub.symbol ++ w).toList).isSome
  | _ => False

/-- At a place of a stream and so deep, the atom grammar reads this value from these tokens.
`not` is an operator there. -/
def ReadsAs (streams : Descent.Streams) (stream : List Lexeme) (at' : Span) (depth pos : ℕ)
    (run : List Lexeme) (value : Ast) : Prop :=
  ∃ p q : Parser, (p.tokens = stream ∧ p.at' = at' ∧ p.depth = depth ∧ p.pos = pos) ∧
    p.peek.asPlainWord ≠ some "not" ∧
    Parse.parseAtom (Descent.descend streams (Lex.nestingDepthLimit - depth)) p = some (.ok value, q) ∧
    q.pos = pos + run.length

/-- Every leaf is what the stream holds at its place, operands nested no deeper than the limit. -/
def Stands (streams : Descent.Streams) (stream : List Lexeme) (at' : Span) : Expr → ℕ → ℕ → Prop
  | atom run value, depth, pos =>
    depth < Lex.nestingDepthLimit ∧ ReadsAs streams stream at' (depth + 1) pos run value
  | group _ inner _, depth, pos =>
    depth < Lex.nestingDepthLimit ∧ inner.Stands streams stream at' (depth + 1) (pos + 1)
  | minus sign operand, depth, pos => depth < Lex.nestingDepthLimit ∧ ¬Fused sign operand.tokens ∧
      operand.Stands streams stream at' (depth + 1) (pos + 1)
  | not _ operand, depth, pos =>
    depth < Lex.nestingDepthLimit ∧ operand.Stands streams stream at' (depth + 1) (pos + 1)
  | binary left _ _ right, depth, pos => left.Stands streams stream at' depth pos ∧
      right.Stands streams stream at' depth (pos + left.tokens.length + 1)

/-! ### Refusals -/

def Touches (unit : Span) : List Lexeme → Prop
  | l :: _ => l.token.isAtomStart = true ∧ l.span.start = unit.stop
  | [] => False

/-- No operator has an operand it refuses, and `not` stands apart from its own. -/
def Clear : Expr → Prop
  | atom _ _ => True
  | group _ inner _ => inner.Clear
  | minus _ operand => operand.ast.isNumeric = true ∧ operand.Clear
  | not word operand => ¬Touches word operand.tokens ∧ operand.Clear
  | binary left op _ right => left.Clear ∧ right.Clear ∧ op.takes left.ast right.ast = true

end Expr

end Ral.Syntax
