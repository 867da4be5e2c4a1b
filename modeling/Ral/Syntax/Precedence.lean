import Ral.Syntax.Expression

/-! # The precedence loop

Given operands that are read where they are written, the loop of the parser is a climb over
them: by induction on the ladder, it reads what the stratified grammar derives.
-/

namespace Ral.Syntax
open Parse Descent

/-! ## What is left to read -/

namespace Parser
variable {p q : Parser}

def rest (p : Parser) : List Lexeme := p.tokens.drop p.pos

theorem ext_of (tokens : q.tokens = p.tokens) (origin : q.at' = p.at') (depth : q.depth = p.depth)
    (pos : q.pos = p.pos) : q = p := by
  obtain ⟨_, _, _, _, _, _⟩ := p
  obtain ⟨_, _, _, _, _, _⟩ := q
  cases tokens
  cases origin
  cases depth
  cases pos
  rfl

theorem rest_of_lt (h : p.pos < p.tokens.length) : p.rest = .mk p.peek p.span :: p.next.rest := by
  have span : p.span = p.tokens[p.pos].span := by simp [Parser.span, List.getElem?_eq_getElem h]
  have next : p.next.rest = p.tokens.drop (p.pos + 1) := by simp [rest, Parser.next, h]
  rw [rest, List.drop_eq_getElem_cons h, peek_eq h, span, next, Lexeme.mk_eta]

theorem lt_of_rest {l : Lexeme} {ts : List Lexeme} (h : p.rest = l :: ts) : p.pos < p.tokens.length := by
  by_contra beyond
  rw [rest, List.drop_eq_nil_of_le (by omega)] at h
  cases h

theorem rest_cons {token : Token} {span : Span} {ts : List Lexeme} (h : p.rest = .mk token span :: ts) :
    p.peek = token ∧ p.span = span ∧ p.next.rest = ts ∧ p.next.pos = p.pos + 1 := by
  have lt := lt_of_rest h
  rw [rest_of_lt lt] at h
  cases h
  exact ⟨rfl, rfl, rfl, next_pos lt⟩

theorem rest_of_peek (h : p.peek ≠ .eof) : p.rest = .mk p.peek p.span :: p.next.rest :=
  rest_of_lt (lt_of_peek h)

theorem peek_of_nil (h : p.rest = []) : p.peek = .eof := by
  by_contra ne
  rw [rest_of_peek ne] at h
  cases h

theorem pos_of_rest {ts : List Lexeme} (moves : Moves p q) (h : p.rest = ts ++ q.rest) :
    q.pos = p.pos + ts.length := by
  have lengths := congrArg List.length h
  rw [List.length_append, rest, rest, List.length_drop, List.length_drop, moves.tokens] at lengths
  have inside := q.inside
  rw [moves.tokens] at inside
  have pos := moves.pos
  omega

theorem cover_of_rest {ts : List Lexeme} (moves : Moves p q) (h : p.rest = ts ++ q.rest) (ne : ts ≠ []) :
    coverAt p.tokens p.pos q.pos = coverAt ts 0 ts.length := by
  have pos := pos_of_rest moves h
  have positive := List.length_pos_iff.mpr ne
  have at' (i : ℕ) (inside : i < ts.length) : p.tokens[p.pos + i]? = ts[i]? := by
    have dropped : p.rest[i]? = p.tokens[p.pos + i]? := List.getElem?_drop
    rw [← dropped, h, List.getElem?_append_left inside]
  have first := at' 0 positive
  have last := at' (ts.length - 1) (by omega)
  rw [Nat.add_zero] at first
  have place : q.pos - 1 = p.pos + (ts.length - 1) := by omega
  simp only [coverAt, startAt, stopAt, first, place, last]

theorem exists_moves {ts us : List Lexeme} (h : p.rest = ts ++ us) :
    ∃ m, Moves p m ∧ m.rest = us ∧ m.pos = p.pos + ts.length := by
  have lengths := congrArg List.length h
  rw [List.length_append, rest, List.length_drop] at lengths
  have inside := p.inside
  have le : p.pos + ts.length ≤ p.tokens.length := by omega
  refine ⟨{ p with pos := p.pos + ts.length, inside := le }, ⟨rfl, rfl, Nat.le_add_right _ _, rfl⟩, ?_, rfl⟩
  show p.tokens.drop (p.pos + ts.length) = us
  rw [← List.drop_drop]
  show p.rest.drop ts.length = us
  rw [h, List.drop_left]

end Parser

/-! ## Written between two places -/

variable {streams : Streams} {p q : Parser} {e : Expr}

structure Expr.Written (streams : Streams) (e : Expr) (p q : Parser) : Prop where
  moves : Moves p q
  rest : p.rest = e.tokens ++ q.rest
  ordered : e.Ordered
  stands : e.Stands streams p.tokens p.at' p.depth p.pos
  clear : e.Clear

namespace Infix

theorem ofOperator_eq {op : Operator} {i : Infix} : ofOperator op = some i ↔ op = i.operator := by
  cases op <;> cases i <;> simp [ofOperator, operator]

theorem operator_ne_assign (op : Infix) : op.operator ≠ .assign := by
  cases op <;> exact nofun

theorem binds_le (op : Infix) : op.binds ≤ 5 := precedence_le op.operator

end Infix

/-- Operands are written as prescribed; an operator is the token ahead. -/
def climbing (streams : Streams) : Climbing Parser Expr (Infix × Span) where
  Operand p e q := e.root = none ∧ e.Written streams p q
  ahead p :=
    match p.peek with
    | .op op => (Infix.ofOperator op).map fun i => ((i, p.span), p.next)
    | _ => none
  binds o := o.1.binds
  node left o right := .binary left o.1 o.2 right
  Fits left o right := o.1.takes left.ast right.ast = true

theorem ahead_iff {o : Infix × Span} {m : Parser} : (climbing streams).ahead p = some (o, m) ↔
    p.rest = .mk (.op o.1.operator) o.2 :: m.rest ∧ m = p.next := by
  constructor
  · intro h
    unfold climbing at h
    dsimp only at h
    split at h
    · next op peek =>
      obtain ⟨i, is, eq⟩ := Option.map_eq_some_iff.mp h
      cases eq
      rw [← Infix.ofOperator_eq.mp is, ← peek]
      exact ⟨Parser.rest_of_peek (by simp [peek]), rfl⟩
    · cases h
  · rintro ⟨rest, rfl⟩
    obtain ⟨peek, span, -, -⟩ := Parser.rest_cons rest
    unfold climbing
    dsimp only
    rw [peek, span]
    dsimp only
    rw [Infix.ofOperator_eq.mpr rfl]
    rfl

/-- What the stratified grammar derives from operands is what is written. -/
theorem derives_iff {a : Option (Infix × Span)} :
    (climbing streams).Derives p e a q ↔ e.root = a ∧ e.Written streams p q := by
  constructor
  · intro h
    induction h with
    | operand operand => exact operand
    | @node s m m' t l r a b o _ ahead _ looser tighter fits left right =>
      obtain ⟨rfl, left⟩ := left
      obtain ⟨rfl, right⟩ := right
      obtain ⟨sign, rfl⟩ := ahead_iff.mp ahead
      obtain ⟨-, -, -, pos⟩ := Parser.rest_cons sign
      have next : Moves m m.next := Parser.moves_next
      have place := Parser.pos_of_rest left.moves left.rest
      refine ⟨rfl, (left.moves.trans next).trans right.moves, ?_, ?_, ?_, ?_⟩
      · show s.rest = (l.tokens ++ _ :: r.tokens) ++ t.rest
        rw [left.rest, sign, right.rest, List.append_assoc, List.cons_append]
      · exact ⟨left.ordered, right.ordered, looser, tighter⟩
      · refine ⟨left.stands, ?_⟩
        have stands := right.stands
        rwa [next.tokens, next.origin, next.depth, left.moves.tokens, left.moves.origin, left.moves.depth,
          pos, place] at stands
      · exact ⟨left.clear, right.clear, fits⟩
  · rintro ⟨rfl, h⟩
    induction e generalizing p q with
    | binary l op sign r left right =>
      have rest : p.rest = l.tokens ++ (.mk (.op op.operator) sign :: (r.tokens ++ q.rest)) := by
        rw [h.rest]
        show (l.tokens ++ _ :: r.tokens) ++ q.rest = _
        rw [List.append_assoc, List.cons_append]
      obtain ⟨ordered, ordered', looser, tighter⟩ := h.ordered
      obtain ⟨stands, stands'⟩ := h.stands
      obtain ⟨clear, clear', fits⟩ := h.clear
      obtain ⟨m, moves, here, place⟩ := Parser.exists_moves rest
      obtain ⟨-, -, there, pos⟩ := Parser.rest_cons here
      have next : Moves m m.next := Parser.moves_next
      have onward : Moves m.next q := by
        refine ⟨h.moves.tokens.trans (moves.trans next).tokens.symm,
          h.moves.depth.trans (moves.trans next).depth.symm, ?_,
          h.moves.origin.trans (moves.trans next).origin.symm⟩
        have whole := Parser.pos_of_rest h.moves h.rest
        simp only [Expr.tokens, List.length_append, List.length_cons] at whole
        omega
      have leftWritten : l.Written streams p m := ⟨moves, by rw [rest, here], ordered, stands, clear⟩
      have rightWritten : r.Written streams m.next q := by
        refine ⟨onward, there, ordered', ?_, clear'⟩
        rwa [next.tokens, next.origin, next.depth, moves.tokens, moves.origin, moves.depth, pos, place]
      refine .node (o := (op, sign)) (left leftWritten) (ahead_iff.mpr ⟨?_, rfl⟩) (right rightWritten) looser tighter fits
      rw [here, there]
    | _ => exact .operand ⟨rfl, h⟩

/-! ## Leaves -/

section Leaves
variable {d : Descent} {α : Type}

theorem nested_ok {body : Parse α} {a : α} : nested body p = some (.ok a, q) ↔
    p.depth < Lex.nestingDepthLimit ∧ ∃ t, body p.deeper = some (.ok a, t) ∧ t.depth ≠ 0 ∧ q = t.shallower := by
  unfold nested
  rw [Run.get_bind]
  by_cases shallow : p.depth < Lex.nestingDepthLimit
  · rw [if_pos shallow, Run.modify_bind]
    constructor
    · intro h
      obtain ⟨r, t, ran, h⟩ := Run.bind_eq_ok.mp h
      obtain ⟨⟨r', t'⟩, runs, eq⟩ := Option.map_eq_some_iff.mp ran
      cases eq
      rw [Run.get_bind] at h
      split at h
      · cases h
      · next deep =>
        rw [Run.modify_bind] at h
        cases h
        exact ⟨shallow, _, runs, deep, rfl⟩
    · rintro ⟨-, t, ran, deep, rfl⟩
      have attempted : Run.attempt body p.deeper = some (.ok (.ok a), t) := by simp [Run.attempt, ran]
      rw [Run.bind_ok attempted, Run.get_bind, if_neg deep, Run.modify_bind]
      rfl
  · rw [if_neg shallow]
    exact ⟨fun h => (by cases h), fun h => absurd h.1 shallow⟩

theorem captureSpan_ok {x : Parse α} {r : Span × α} : captureSpan x p = some (.ok r, q) ↔
    x p = some (.ok r.2, q) ∧ r.1 = p.span.join q.prevByteSpan := by
  unfold captureSpan
  rw [Run.get_bind, Run.bind_eq_ok]
  constructor
  · rintro ⟨v, t, ran, h⟩
    cases h
    exact ⟨ran, rfl⟩
  · rintro ⟨ran, span⟩
    obtain ⟨r, a⟩ := r
    cases span
    exact ⟨a, q, ran, rfl⟩

theorem primary_of_atom {a : Ast} (h : (withAtoms d).parseAtomUnchecked p = some (.ok a, q)) :
    ∃ v t, d.parsePrimary p = some (.ok v, t) := by
  unfold withAtoms at h
  dsimp only at h
  rw [Run.get_bind, keyed] at h
  dsimp only at h
  unfold atomUnchecked at h
  rw [Run.get_bind] at h
  obtain ⟨r, t, node, -⟩ := Run.bind_eq_ok.mp h
  have same : (keyed d (p.tokens.length - p.pos)).parsePrimary = d.parsePrimary := by
    cases p.tokens.length - p.pos <;> rfl
  rw [same] at node
  exact ⟨_, _, (captureSpan_ok.mp node).1⟩

theorem is_lParen {token : Token} : token.is .lParen = true ↔ token = .lParen := by
  cases token <;> simp [Token.is, Token.discriminant]

theorem is_rParen {token : Token} : token.is .rParen = true ↔ token = .rParen := by
  cases token <;> simp [Token.is, Token.discriminant]

theorem is_eof {token : Token} : token.is .eof = true ↔ token = .eof := by
  cases token <;> simp [Token.is, Token.discriminant]

theorem peek_next (h : p.pos < p.tokens.length) : p.next.peek = p.peekAt 1 := by
  simp [Parser.peek, Parser.peekAt, Parser.next, h]

theorem parseUnit_ok {a : Ast} (h : parseUnit p = some (.ok a, q)) : p.peekAt 1 = .rParen := by
  unfold parseUnit at h
  obtain ⟨_, t, opened, h⟩ := Run.bind_eq_ok.mp h
  obtain ⟨closed, u, ate, h⟩ := Run.bind_eq_ok.mp h
  unfold Parse.expect at opened
  rw [Run.get_bind] at opened
  split at opened
  · next lParen =>
    cases opened
    unfold eat at ate
    rw [Run.get_bind] at ate
    split at ate
    · next rParen =>
      rw [peek_next (Parser.lt_of_is lParen rfl)] at rParen
      exact is_rParen.mp rParen
    · cases ate
      cases h
  · cases opened

theorem parseWord_ok {a : Ast} (h : parseWord d p = some (.ok a, q)) :
    p.peek ≠ .rParen ∧ ∀ op, p.peek = .op op → p.signedNumeral.isSome := by
  unfold parseWord at h
  rw [Run.get_bind] at h
  constructor
  · intro peek
    have unsigned : p.signedNumeral = none := by simp [Parser.signedNumeral, peek]
    rw [unsigned] at h
    dsimp only at h
    rw [peek] at h
    cases h
  · intro op peek
    by_contra unsigned
    rw [Option.not_isSome_iff_eq_none.mp unsigned] at h
    dsimp only at h
    rw [peek] at h
    cases h

theorem peek_deeper : p.deeper.peek = p.peek := by
  unfold Parser.deeper
  split <;> rfl

theorem peekAt_deeper {n : ℕ} : p.deeper.peekAt n = p.peekAt n := by
  unfold Parser.deeper
  split <;> rfl

theorem signedNumeral_deeper : p.deeper.signedNumeral = p.signedNumeral := by
  unfold Parser.deeper
  split <;> rfl

theorem atom_starts {n : ℕ} {a : Ast} (h : parseAtom (descend streams n) p = some (.ok a, q)) :
    (p.peek = .lParen → p.peekAt 1 = .rParen) ∧ p.peek ≠ .rParen ∧
      ∀ op, p.peek = .op op → p.signedNumeral.isSome := by
  unfold parseAtom at h
  obtain ⟨r, t, captured, -⟩ := Run.bind_eq_ok.mp h
  have atom := (captureSpan_ok.mp captured).1
  cases n with
  | zero =>
    obtain ⟨v, u, primary⟩ := primary_of_atom atom
    obtain ⟨-, w, stuck, -⟩ := nested_ok.mp primary
    cases stuck
  | succ n =>
    obtain ⟨v, u, primary⟩ := primary_of_atom atom
    obtain ⟨shallow, w, body, -⟩ := nested_ok.mp primary
    unfold primaryBody at body
    rw [Run.get_bind, peek_deeper] at body
    refine ⟨?_, ?_, ?_⟩
    · intro peek
      rw [peek] at body
      rw [← peekAt_deeper]
      exact parseUnit_ok body
    · intro peek
      rw [peek] at body
      exact (parseWord_ok body).1 (peek_deeper.trans peek)
    · intro op peek
      rw [peek] at body
      rw [← signedNumeral_deeper]
      exact (parseWord_ok body).2 op (peek_deeper.trans peek)

/-! ### Side conditions -/

theorem peekAt_one {l : Lexeme} {ts : List Lexeme} (h : p.rest = l :: ts) : p.peekAt 1 = p.next.peek :=
  (peek_next (Parser.lt_of_rest h)).symm

theorem getElem?_rest (i : ℕ) : p.tokens[p.pos + i]? = p.rest[i]? := List.getElem?_drop.symm

theorem touchesAfter_iff {unit : Span} : p.touchesAfter unit = true ↔ Expr.Touches unit p.rest := by
  unfold Parser.touchesAfter Parser.atomStartsAt
  rw [getElem?_rest]
  cases p.rest with
  | nil => simp [Expr.Touches]
  | cons l ts => simp [Expr.Touches]

theorem signedNumeral_iff {sign : Span} {ts : List Lexeme}
    (h : p.rest = .mk (.op (.binary (.arith .sub))) sign :: ts) :
    p.signedNumeral.isSome ↔ Expr.Fused sign ts := by
  obtain ⟨peek, span, next, -⟩ := Parser.rest_cons h
  have second : p.tokens[p.pos + 1]? = ts[0]? := by rw [getElem?_rest, h, List.getElem?_cons_succ]
  cases ts with
  | nil => simp [Parser.signedNumeral, peek, Parser.peekAt, second, Expr.Fused]
  | cons l ts =>
    obtain ⟨token, at'⟩ := l
    cases token with
    | word w =>
      cases w <;> simp [Parser.signedNumeral, peek, Parser.peekAt, second, Expr.Fused, Parser.touchesNext,
        span, Lexeme.token, Lexeme.span]
    | _ => simp [Parser.signedNumeral, peek, Parser.peekAt, second, Expr.Fused, Lexeme.token]

theorem numericOperand_iff {operand : Spanned Ast} :
    numericOperand operand = .ok () ↔ operand.item.isNumeric = true := by
  unfold numericOperand Ast.isNumeric
  split
  · split <;> simp_all
  · simp

theorem numericOperands_iff {left right : Spanned Ast} {tree node : Ast} :
    (do numericOperand left; numericOperand right; pure tree) = (.ok node : Except ParseError Ast) ↔
      (left.item.isNumeric && right.item.isNumeric) = true ∧ node = tree := by
  rw [Bool.and_eq_true, ← numericOperand_iff, ← numericOperand_iff]
  constructor
  · intro h
    obtain ⟨⟨⟩, first, h⟩ := Fallible.bind_eq_ok.mp h
    obtain ⟨⟨⟩, second, h⟩ := Fallible.bind_eq_ok.mp h
    cases h
    exact ⟨⟨first, second⟩, rfl⟩
  · rintro ⟨⟨first, second⟩, rfl⟩
    rw [first, second]
    rfl

theorem binaryNode_iff {assign : ParseError} {left right : Spanned Ast} {op : Infix} {node : Ast} :
    binaryNode assign left right op.operator = .ok node ↔
      op.takes left.item right.item = true ∧ node = op.node left right := by
  cases op with
  | and => exact ⟨fun h => by cases h; exact ⟨rfl, rfl⟩, fun h => by rw [h.2]; rfl⟩
  | or => exact ⟨fun h => by cases h; exact ⟨rfl, rfl⟩, fun h => by rw [h.2]; rfl⟩
  | binary op =>
    cases op with
    | arith _ => exact numericOperands_iff
    | compare _ => exact numericOperands_iff
    | eq _ => exact ⟨fun h => by cases h; exact ⟨rfl, rfl⟩, fun h => by rw [h.2]; rfl⟩

end Leaves

/-! ## The climb -/

section Climb
variable {source : Span} {tokens : List Lexeme} {height level ladder min : ℕ} {d : Descent}

/-- What follows neither touches an operand nor is a lone `=`. -/
def Halts (p : Parser) : Prop := p.peek.isAtomStart = false ∧ p.peek ≠ .op .assign

/-- The operands of `d` are those prescribed. -/
structure OperandsRead (source : Span) (tokens : List Lexeme) (height level : ℕ) (streams : Streams)
    (d : Descent) : Prop where
  grows : ∀ {p q e}, Fit source tokens height level (tokens.length + 1) p →
    (climbing streams).Operand p e q → p.pos < q.pos
  sound : ∀ {p q a}, Fit source tokens height level (tokens.length + 1) p →
    d.parseExprOperand p = some (.ok a, q) → ∃ e, (climbing streams).Operand p e q ∧ e.ast = a
  complete : ∀ {p q e}, Fit source tokens height level (tokens.length + 1) p →
    (climbing streams).Operand p e q → q.peek.isAtomStart = false →
    d.parseExprOperand p = some (.ok e.ast, q)

def climbOperator (d : Descent) (ladder min : ℕ) (start p : Parser) (left : Spanned Ast) (op : Operator) :
    Parse (Turn (Spanned Ast) (Spanned Ast)) :=
  if precedence op < min then pure (.done left)
  else do
    advance
    let q ← Run.get
    if q.peek.is .eof then
      Run.fail (.new (some p.span) ("`" ++ op.display ++ "` needs an operand on its right"))
    else
      let right ← parseExprPrec d ladder (precedence op + 1)
      let r ← Run.get
      let node ← Run.ofExcept (binaryNode (r.error assignIsNoOperator) left right op)
      pure (.again ⟨start.span.join r.prevByteSpan, node⟩)

def climbTurn (d : Descent) (ladder min : ℕ) (start : Parser) (left : Spanned Ast) :
    Parse (Turn (Spanned Ast) (Spanned Ast)) := do
  let p ← Run.get
  match p.peek with
  | .op .assign => Run.fail (p.error assignIsNoOperator)
  | .op op => climbOperator d ladder min start p left op
  | _ => pure (.done left)

theorem parseExprPrec_succ : parseExprPrec d (ladder + 1) min = (do
    let start ← Run.get
    let first ← captureSpan d.parseExprOperand
    loop (climbTurn d ladder min start) ⟨first.1, first.2⟩) := rfl

theorem climbTurn_operator {start : Parser} {left : Spanned Ast} {op : Infix}
    (peek : p.peek = .op op.operator) :
    climbTurn d ladder min start left p = climbOperator d ladder min start p left op.operator p := by
  unfold climbTurn
  rw [Run.get_bind, peek]
  cases op <;> rfl

theorem ahead_of_peek {op : Infix} (peek : p.peek = .op op.operator) :
    (climbing streams).ahead p = some ((op, p.span), p.next) := by
  apply ahead_iff.mpr
  rw [← peek]
  exact ⟨Parser.rest_of_peek (by simp [peek]), rfl⟩

theorem ahead_cases (p : Parser) : p.peek = .op .assign ∨ (∃ op : Infix, p.peek = .op op.operator) ∨
    ∀ op, p.peek ≠ .op op := by
  by_cases other : ∀ op, p.peek ≠ .op op
  · exact .inr (.inr other)
  · obtain ⟨op, peek⟩ := not_forall_not.mp other
    cases op with
    | assign => exact .inl peek
    | and => exact .inr (.inl ⟨.and, peek⟩)
    | or => exact .inr (.inl ⟨.or, peek⟩)
    | binary op => exact .inr (.inl ⟨.binary op, peek⟩)

theorem climbTurn_other {start : Parser} {left : Spanned Ast} (other : ∀ op, p.peek ≠ .op op) :
    climbTurn d ladder min start left p = some (.ok (.done left), p) := by
  unfold climbTurn
  rw [Run.get_bind]
  cases peek : p.peek with
  | op op => exact absurd peek (other op)
  | _ => rfl

theorem climbTurn_done {start : Parser} {left : Spanned Ast} (stops : (climbing streams).Stops min p)
    (halts : p.peek ≠ .op .assign) : climbTurn d ladder min start left p = some (.ok (.done left), p) := by
  rcases ahead_cases p with assign | ⟨op, peek⟩ | other
  · exact absurd assign halts
  · have loose : precedence op.operator < min := stops _ _ (ahead_of_peek peek)
    rw [climbTurn_operator peek]
    unfold climbOperator
    rw [if_pos loose]
    rfl
  · exact climbTurn_other other

theorem stops_of_other (other : ∀ op, p.peek ≠ .op op) : (climbing streams).Stops min p := by
  intro o t ahead
  obtain ⟨rest, -⟩ := ahead_iff.mp ahead
  exact absurd (Parser.rest_cons rest).1 (other _)

theorem climbTurn_again {start : Parser} {left right : Spanned Ast} {op : Infix}
    (peek : p.peek = .op op.operator) (tight : min ≤ op.binds) (proper : p.next.peek.is .eof = false)
    (ran : parseExprPrec d ladder (op.binds + 1) p.next = some (.ok right, q))
    (takes : op.takes left.item right.item = true) : climbTurn d ladder min start left p =
      some (.ok (.again ⟨start.span.join q.prevByteSpan, op.node left right⟩), q) := by
  have loose : ¬precedence op.operator < min := Nat.not_lt.mpr tight
  have right' : parseExprPrec d ladder (precedence op.operator + 1) p.next = some (.ok right, q) := ran
  rw [climbTurn_operator peek]
  unfold climbOperator advance
  rw [if_neg loose, Run.modify_bind, Run.get_bind, proper, if_neg Bool.false_ne_true, Run.bind_ok right',
    Run.get_bind, binaryNode_iff.mpr ⟨takes, rfl⟩]
  rfl

/-- A turn leaves the loop, or has read one operator and its right-hand side. -/
theorem climbTurn_ok {start : Parser} {left : Spanned Ast} {turn : Turn (Spanned Ast) (Spanned Ast)}
    (h : climbTurn d ladder min start left p = some (.ok turn, q)) :
    (turn = .done left ∧ q = p ∧ (climbing streams).Stops min p) ∨
      ∃ op : Infix, p.peek = .op op.operator ∧ min ≤ op.binds ∧ ∃ right,
        parseExprPrec d ladder (op.binds + 1) p.next = some (.ok right, q) ∧
        op.takes left.item right.item = true ∧
        turn = .again ⟨start.span.join q.prevByteSpan, op.node left right⟩ := by
  rcases ahead_cases p with assign | ⟨op, peek⟩ | other
  · unfold climbTurn at h
    rw [Run.get_bind, assign] at h
    cases h
  · rw [climbTurn_operator peek] at h
    unfold climbOperator at h
    split at h
    · next loose =>
      cases h
      refine .inl ⟨rfl, rfl, ?_⟩
      intro o t ahead
      rw [ahead_of_peek peek] at ahead
      cases ahead
      exact loose
    · next tight =>
      unfold advance at h
      rw [Run.modify_bind, Run.get_bind] at h
      split at h
      · cases h
      · obtain ⟨right, t, ran, h⟩ := Run.bind_eq_ok.mp h
        rw [Run.get_bind] at h
        obtain ⟨node, u, made, h⟩ := Run.bind_eq_ok.mp h
        cases h
        unfold Run.ofExcept at made
        obtain ⟨built, rfl⟩ := Prod.mk.inj (Option.some.inj made)
        obtain ⟨takes, rfl⟩ := binaryNode_iff.mp built
        exact .inr ⟨op, peek, Nat.not_lt.mp tight, right, ran, takes, rfl⟩
  · rw [climbTurn_other other] at h
    cases h
    exact .inl ⟨rfl, rfl, stops_of_other other⟩

theorem join_span (fit : Fit source tokens height level (tokens.length + 1) p) (moves : Moves p q)
    (rest : p.rest = e.tokens ++ q.rest) (lt : p.pos < q.pos) : p.span.join q.prevByteSpan = e.span := by
  rw [fit.join_eq moves lt, ← fit.stream]
  apply Parser.cover_of_rest moves rest
  intro none
  have pos := Parser.pos_of_rest moves rest
  rw [none, List.length_nil] at pos
  omega

/-- The precedence loop reads what the grammar says, from any place of the stream. -/
structure ClimbsRead (source : Span) (tokens : List Lexeme) (height level : ℕ) (streams : Streams)
    (parse : ℕ → Parse (Spanned Ast)) (min : ℕ) : Prop where
  sound : ∀ {p q a}, Fit source tokens height level (tokens.length + 1) p →
    parse min p = some (.ok a, q) → ∃ e, (climbing streams).Climbs min p e q ∧ e.spanned = a
  complete : ∀ {p q e}, Fit source tokens height level (tokens.length + 1) p →
    (climbing streams).Climbs min p e q → Halts q → parse min p = some (.ok e.spanned, q)

theorem written_of_climbs (h : (climbing streams).Climbs min p e q) : e.Written streams p q := by
  obtain ⟨a, derived, -, -⟩ := Climbing.climbs_iff.mp h
  exact (derives_iff.mp derived).2

theorem OperandsRead.grows_climbs (operands : OperandsRead source tokens height level streams d)
    (fit : Fit source tokens height level (tokens.length + 1) p)
    (h : (climbing streams).Climbs min p e q) : p.pos < q.pos := by
  have written := written_of_climbs h
  by_cases root : e.root = none
  · exact operands.grows fit ⟨root, written⟩
  · have pos := Parser.pos_of_rest written.moves written.rest
    cases e with
    | binary l op sign r =>
      simp only [Expr.tokens, List.length_append, List.length_cons] at pos
      omega
    | _ => exact absurd rfl root

theorem extend {start m : Parser} {left right : Expr} {op : Infix}
    (fit : Fit source tokens height level (tokens.length + 1) start) (moves : Moves start m)
    (rest : start.rest = left.tokens ++ m.rest) (peek : m.peek = .op op.operator)
    (written : right.Written streams m.next q) :
    Moves start q ∧ start.rest = (left.binary op m.span right).tokens ++ q.rest ∧
      start.span.join q.prevByteSpan = (left.binary op m.span right).span := by
  have next : Moves m m.next := Parser.moves_next
  have here := Parser.rest_of_peek (p := m) (by simp [peek])
  have pos := (Parser.rest_cons here).2.2.2
  have whole : start.rest = (left.binary op m.span right).tokens ++ q.rest := by
    show _ = (left.tokens ++ _ :: right.tokens) ++ q.rest
    rw [rest, here, peek, written.rest, List.append_assoc, List.cons_append]
  have onward := (moves.trans next).trans written.moves
  refine ⟨onward, whole, join_span fit onward whole ?_⟩
  have := moves.pos
  have := written.moves.pos
  omega

variable {min : ℕ}

theorem turns_sound
    (deeper : ∀ min, 7 ≤ ladder + min → min ≤ 6 →
      ClimbsRead source tokens height level streams (parseExprPrec d ladder) min)
    (enough : 7 ≤ ladder + 1 + min) {start : Parser}
    (fit : Fit source tokens height level (tokens.length + 1) start) {n : ℕ} {m : Parser} {left : Expr}
    {a : Spanned Ast} (moves : Moves start m) (rest : start.rest = left.tokens ++ m.rest)
    (h : turns (climbTurn d ladder min start) n left.spanned m = some (.ok a, q)) :
    ∃ e, (climbing streams).Loops min left m e q ∧ e.spanned = a := by
  induction n generalizing m left with
  | zero => cases h
  | succ n ih =>
    unfold turns at h
    rw [Run.get_bind] at h
    obtain ⟨turn, t, ran, h⟩ := Run.bind_eq_ok.mp h
    obtain ⟨rfl, rfl, stops⟩ | ⟨op, peek, tight, right, read, takes, rfl⟩ := climbTurn_ok ran
    · cases h
      exact ⟨left, .done stops, rfl⟩
    · have le := op.binds_le
      have fit' := (fit.moves moves).moves Parser.moves_next
      obtain ⟨e, climbs, rfl⟩ := (deeper (op.binds + 1) (by omega) (by omega)).sound fit' read
      obtain ⟨onward, rest', span⟩ := extend fit moves rest peek (written_of_climbs climbs)
      dsimp only at h
      rw [Run.get_bind] at h
      split at h
      · have next : (⟨start.span.join t.prevByteSpan, op.node left.spanned e.spanned⟩ : Spanned Ast) =
            (left.binary op m.span e).spanned := by
          rw [span]
          rfl
        rw [next] at h
        obtain ⟨e', loops, rfl⟩ := ih onward rest' h
        obtain ⟨x, u, operand, inner⟩ := climbs
        exact ⟨e', .again (ahead_of_peek peek) tight operand inner takes loops, rfl⟩
      · cases h

theorem unended (proper : ∀ l ∈ tokens, l.token.isEof = false)
    (fit : Fit source tokens height level (tokens.length + 1) p) (lt : p.pos < p.tokens.length) :
    p.peek.is .eof = false := by
  have mem : p.tokens[p.pos] ∈ tokens := by
    rw [← fit.stream]
    exact List.getElem_mem lt
  have ended := proper _ mem
  rw [← Parser.peek_eq lt] at ended
  cases peek : p.peek with
  | eof =>
    rw [peek] at ended
    cases ended
  | _ => rfl

theorem halts_of_ahead {o : Infix × Span} {m : Parser} (h : (climbing streams).ahead p = some (o, m)) :
    Halts p := by
  obtain ⟨rest, -⟩ := ahead_iff.mp h
  obtain ⟨peek, -⟩ := Parser.rest_cons rest
  unfold Halts
  rw [peek]
  exact ⟨rfl, fun eq => o.1.operator_ne_assign (Token.op.inj eq)⟩

theorem turns_complete (operands : OperandsRead source tokens height level streams d)
    (proper : ∀ l ∈ tokens, l.token.isEof = false)
    (deeper : ∀ min, 7 ≤ ladder + min → min ≤ 6 →
      ClimbsRead source tokens height level streams (parseExprPrec d ladder) min)
    (enough : 7 ≤ ladder + 1 + min) {start : Parser}
    (fit : Fit source tokens height level (tokens.length + 1) start) {m : Parser} {left : Expr}
    (loops : (climbing streams).Loops min left m e q) (halts : Halts q) : ∀ {n : ℕ}, Moves start m →
    start.rest = left.tokens ++ m.rest → m.rest.length < n →
    turns (climbTurn d ladder min start) n left.spanned m = some (.ok e.spanned, q) := by
  induction loops with
  | done stops =>
    intro n _ _ room
    cases n with
    | zero => omega
    | succ n =>
      unfold turns
      rw [Run.get_bind, Run.bind_ok (climbTurn_done stops halts.2)]
      rfl
  | @again min left x right e o m m' u t q ahead tight operand inner takes loops _ ih =>
    intro n moves rest room
    cases n with
    | zero => omega
    | succ n =>
      obtain ⟨here, rfl⟩ := ahead_iff.mp ahead
      obtain ⟨peek, span, -, pos⟩ := Parser.rest_cons here
      have climbs : (climbing streams).Climbs (o.1.binds + 1) m.next right t := ⟨x, u, operand, inner⟩
      have written := written_of_climbs climbs
      have fit' := (fit.moves moves).moves Parser.moves_next
      obtain ⟨onward, rest', spanned⟩ := extend fit moves rest peek written
      have grown := operands.grows_climbs fit' climbs
      have more := unended proper fit' (lt_of_lt_of_le grown (by
        have inside := t.inside
        rwa [written.moves.tokens] at inside))
      have le := o.1.binds_le
      have tight' : min ≤ o.1.binds := tight
      have follows : Halts t := by
        rcases loops.ahead with rfl | ⟨o', t', ahead'⟩
        · exact halts
        · exact halts_of_ahead ahead'
      have read := (deeper (o.1.binds + 1) (by omega) (by omega)).complete fit' climbs follows
      have turn : climbTurn d ladder min start left.spanned m = _ :=
        climbTurn_again peek tight more read takes
      unfold turns
      rw [Run.get_bind, Run.bind_ok turn]
      dsimp only
      rw [Run.get_bind, if_pos (by omega)]
      have next : (⟨start.span.join t.prevByteSpan, o.1.node left.spanned right.spanned⟩ : Spanned Ast) =
          (left.binary o.1 o.2 right).spanned := by
        rw [spanned, span]
        rfl
      rw [next]
      rw [span] at rest'
      apply ih enough halts onward rest'
      have lengths := congrArg List.length written.rest
      have lengths' := congrArg List.length here
      rw [List.length_cons] at lengths'
      rw [List.length_append] at lengths
      omega

theorem captured (operands : OperandsRead source tokens height level streams d)
    (fit : Fit source tokens height level (tokens.length + 1) p)
    (operand : (climbing streams).Operand p e q) : p.span.join q.prevByteSpan = e.span :=
  join_span fit operand.2.moves operand.2.rest (operands.grows fit operand)

/-- By induction on the ladder, of which each right-hand side is a rung further up. -/
theorem climbsRead (operands : OperandsRead source tokens height level streams d)
    (proper : ∀ l ∈ tokens, l.token.isEof = false) (enough : 7 ≤ ladder + min) (low : min ≤ 6) :
    ClimbsRead source tokens height level streams (parseExprPrec d ladder) min := by
  induction ladder generalizing min with
  | zero => omega
  | succ ladder ih =>
    have deeper : ∀ min, 7 ≤ ladder + min → min ≤ 6 →
        ClimbsRead source tokens height level streams (parseExprPrec d ladder) min :=
      fun _ enough low => ih enough low
    constructor
    · intro p q a fit h
      rw [parseExprPrec_succ, Run.get_bind] at h
      obtain ⟨first, t, ran, h⟩ := Run.bind_eq_ok.mp h
      obtain ⟨ran, span⟩ := captureSpan_ok.mp ran
      obtain ⟨x, operand, ast⟩ := operands.sound fit ran
      have start : (⟨first.1, first.2⟩ : Spanned Ast) = x.spanned := by
        rw [span, captured operands fit operand, ← ast]
        rfl
      rw [start] at h
      obtain ⟨e, loops, eq⟩ := turns_sound deeper enough fit operand.2.moves operand.2.rest h
      exact ⟨e, ⟨x, t, operand, loops⟩, eq⟩
    · rintro p q e fit ⟨x, t, operand, loops⟩ halts
      have follows : t.peek.isAtomStart = false := by
        rcases loops.ahead with rfl | ⟨o, t', ahead⟩
        · exact halts.1
        · exact (halts_of_ahead ahead).1
      have first : captureSpan d.parseExprOperand p = some (.ok (x.span, x.ast), t) :=
        captureSpan_ok.mpr ⟨operands.complete fit operand follows, (captured operands fit operand).symm⟩
      rw [parseExprPrec_succ, Run.get_bind, Run.bind_ok first]
      apply turns_complete operands proper deeper enough fit loops halts operand.2.moves operand.2.rest
      rw [Parser.rest, List.length_drop]
      omega

end Climb

end Ral.Syntax
