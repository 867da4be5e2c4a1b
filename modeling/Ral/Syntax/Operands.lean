import Ral.Syntax.Precedence

/-! # Expressions parse by precedence

Operands nest to the limit: by induction from there, what the parser reads between two places
is an expression written there as the precedence table prescribes.
-/

namespace Ral.Syntax
open Parse Descent

variable {streams : Streams} {p q : Parser} {e : Expr}

/-! ## Operands -/

section Operands
variable {source : Span} {tokens : List Lexeme} {height level : ℕ}

theorem rest_deeper : p.deeper.rest = p.rest := by
  unfold Parser.deeper
  split <;> rfl

theorem moves_deeper (shallow : p.depth < Lex.nestingDepthLimit) (moves : Moves p q) :
    Moves p.deeper q.deeper := by
  have shallow' : q.depth < Lex.nestingDepthLimit := by rwa [moves.depth]
  rw [deeper_eq shallow, deeper_eq shallow']
  exact ⟨moves.tokens, congrArg (· + 1) moves.depth, moves.pos, moves.origin⟩

theorem shallower_deeper (shallow : p.depth < Lex.nestingDepthLimit) : p.deeper.shallower = p := by
  rw [deeper_eq shallow]
  rfl

theorem moves_shallower {t : Parser} (shallow : p.depth < Lex.nestingDepthLimit) (moves : Moves p.deeper t) :
    Moves p t.shallower ∧ t.depth ≠ 0 := by
  rw [deeper_eq shallow] at moves
  have depth : t.depth = p.depth + 1 := moves.depth
  refine ⟨⟨moves.tokens, ?_, moves.pos, moves.origin⟩, by omega⟩
  show t.depth - 1 = p.depth
  omega

theorem moves_of_reads {α : Type} {x : Parse α} {P : α → Parser → Prop} {a : α} (reads : Reads x p P)
    (h : x p = some (.ok a, q)) : Moves p q ∧ P a q := by
  obtain ⟨r, t, ran, moves, post⟩ := reads
  rw [h] at ran
  cases ran
  exact ⟨moves, post a rfl⟩

theorem atom_written {d : Descent} (sound : Sound source height level (tokens.length + 1) d)
    (same : d = descend streams level)
    (fit : Fit source tokens height (level + 1) (tokens.length + 1) p) {t : Parser} {a : Ast}
    (h : parseAtom d p.deeper = some (.ok a, t)) (ne : p.peek.asPlainWord ≠ some "not") :
    ∃ run, (Expr.atom run a).Written streams p t.shallower := by
  obtain ⟨fit', pos⟩ := fit.deeper
  have limit := fit.level
  have shallow : p.depth < Lex.nestingDepthLimit := by omega
  have moves := (moves_of_reads (reads_parseAtom sound fit') h).1
  obtain ⟨up, -⟩ := moves_shallower shallow moves
  have later := moves.pos
  have inside := t.inside
  rw [moves.tokens, fit'.stream] at inside
  refine ⟨p.rest.take (t.pos - p.pos), up, ?_, trivial, ⟨shallow, ?_⟩, trivial⟩
  · have rest : t.shallower.rest = p.rest.drop (t.pos - p.pos) := by
      show t.tokens.drop t.pos = (p.tokens.drop p.pos).drop _
      rw [List.drop_drop, moves.tokens, fit'.stream, fit.stream]
      congr 1
      omega
    rw [rest]
    exact (List.take_append_drop _ _).symm
  · refine ⟨p.deeper, t, ⟨?_, ?_, ?_, pos⟩, ?_, ?_, ?_⟩
    · rw [fit'.stream, fit.stream]
    · rw [deeper_eq shallow]
    · rw [deeper_eq shallow]
    · rwa [peek_deeper]
    · have n : Lex.nestingDepthLimit - (p.depth + 1) = level := by omega
      rw [n, ← same]
      exact h
    · rw [List.length_take, Parser.rest, List.length_drop, fit.stream]
      omega

theorem written_shallower {t : Parser} (shallow : p.depth < Lex.nestingDepthLimit) (moves : Moves p.deeper t)
    (rest : p.deeper.rest = e.tokens ++ t.rest) (ordered : e.Ordered)
    (stands : e.Stands streams p.tokens p.at' p.depth p.pos) (clear : e.Clear) :
    e.Written streams p t.shallower :=
  ⟨(moves_shallower shallow moves).1, by rw [← rest_deeper, rest]; rfl, ordered, stands, clear⟩

theorem stands_next {t : Parser} (shallow : p.depth < Lex.nestingDepthLimit)
    (written : e.Written streams p.deeper.next t) (lt : p.pos < p.tokens.length) :
    e.Stands streams p.tokens p.at' (p.depth + 1) (p.pos + 1) := by
  have stands := written.stands
  rw [deeper_eq shallow] at stands
  have next : Moves (p.deeper) p.deeper.next := Parser.moves_next
  rw [deeper_eq shallow] at next
  have pos := Parser.next_pos (s := { p with depth := p.depth + 1, shallow := shallow }) lt
  rw [next.tokens, next.origin, next.depth, pos] at stands
  exact stands

theorem endUnit_ok {d : Descent} {unit : Span} {r : Unit} :
    endUnit d unit p = some (.ok r, q) ↔ p.touchesAfter unit = false ∧ q = p := by
  unfold endUnit
  rw [Run.get_bind]
  by_cases touches : p.touchesAfter unit = true
  · rw [if_pos touches]
    constructor
    · intro h
      obtain ⟨_, _, _, failed⟩ := Run.bind_eq_ok.mp h
      cases failed
    · intro h
      rw [touches] at h
      exact absurd h.1.symm Bool.false_ne_true
  · rw [if_neg touches]
    constructor
    · intro h
      cases h
      exact ⟨Bool.not_eq_true _ ▸ touches, rfl⟩
    · rintro ⟨-, rfl⟩
      rfl

theorem expect_ok {token : Token} {r : Unit} :
    Parse.expect token p = some (.ok r, q) ↔ p.peek.is token = true ∧ q = p.next := by
  unfold Parse.expect
  rw [Run.get_bind]
  by_cases found : p.peek.is token = true
  · rw [if_pos found]
    constructor
    · intro h
      cases h
      exact ⟨found, rfl⟩
    · rintro ⟨-, rfl⟩
      rfl
  · rw [if_neg found]
    exact ⟨nofun, fun h => absurd h.1 found⟩

theorem operandAfter_ok {at' : Span} {name : String} {r : Unit} :
    operandAfter at' name p = some (.ok r, q) ↔ p.peek.is .eof = false ∧ q = p := by
  unfold operandAfter
  rw [Run.get_bind]
  cases ended : p.peek.is .eof with
  | true => exact ⟨nofun, nofun⟩
  | false =>
    constructor
    · intro h
      cases h
      exact ⟨rfl, rfl⟩
    · rintro ⟨-, rfl⟩
      rfl

variable {d : Descent} {t : Parser} {a : Ast}

/-- What stands between parentheses, both of them included. -/
def grouped (d : Descent) : Parse (Spanned Ast) := do
  advance
  let expr ← parseExpr d
  Parse.expect .rParen
  pure expr

theorem grouped_sound (operands : OperandsRead source tokens height level streams d)
    (proper : ∀ l ∈ tokens, l.token.isEof = false)
    (fit : Fit source tokens height level (tokens.length + 1) p) {inner : Spanned Ast}
    (h : grouped d p = some (.ok inner, q)) : ∃ e m, (climbing streams).Climbs 0 p.next e m ∧
      m.peek = .rParen ∧ q = m.next ∧ inner = e.spanned := by
  unfold grouped advance at h
  rw [Run.modify_bind] at h
  obtain ⟨expr, m, ran, h⟩ := Run.bind_eq_ok.mp h
  obtain ⟨_, u, closed, h⟩ := Run.bind_eq_ok.mp h
  cases h
  obtain ⟨rParen, rfl⟩ := expect_ok.mp closed
  have reads := climbsRead operands proper (Nat.le_refl 7) (Nat.zero_le 6)
  obtain ⟨e, climbs, rfl⟩ := reads.sound (fit.moves Parser.moves_next) ran
  exact ⟨e, m, climbs, is_rParen.mp rParen, rfl, rfl⟩

theorem grouped_complete (operands : OperandsRead source tokens height level streams d)
    (proper : ∀ l ∈ tokens, l.token.isEof = false)
    (fit : Fit source tokens height level (tokens.length + 1) p) {m : Parser}
    (climbs : (climbing streams).Climbs 0 p.next e m) (closed : m.peek = .rParen) :
    grouped d p = some (.ok e.spanned, m.next) := by
  have reads := climbsRead operands proper (Nat.le_refl 7) (Nat.zero_le 6)
  have halts : Halts m := by
    unfold Halts
    rw [closed]
    exact ⟨rfl, nofun⟩
  have ran : parseExpr d p.next = some (.ok e.spanned, m) :=
    reads.complete (fit.moves Parser.moves_next) climbs halts
  have closing : Parse.expect .rParen m = some (.ok (), m.next) := expect_ok.mpr ⟨is_rParen.mpr closed, rfl⟩
  unfold grouped advance
  rw [Run.modify_bind, Run.bind_ok ran, Run.bind_ok closing]
  rfl

theorem fused_append {sign : Span} {ts us : List Lexeme} (ne : ts ≠ []) :
    Expr.Fused sign (ts ++ us) ↔ Expr.Fused sign ts := by
  cases ts with
  | nil => exact absurd rfl ne
  | cons l ts =>
    obtain ⟨token, at'⟩ := l
    cases token with
    | word w => cases w <;> exact Iff.rfl
    | _ => exact Iff.rfl

theorem touches_append {unit : Span} {ts us : List Lexeme} (ne : ts ≠ []) :
    Expr.Touches unit (ts ++ us) ↔ Expr.Touches unit ts := by
  cases ts with
  | nil => exact absurd rfl ne
  | cons l ts => exact Iff.rfl

/-! ### The productions -/

def minusToken : Token := .op (.binary (.arith .sub))

def notToken : Token := .word (.plain "not")

/-- A prefix operator and its operand. -/
def negated (d : Descent) (minus : Span) : Parse Ast := do
  advance
  operandAfter minus "-"
  let inner ← captureSpan d.parseExprOperand
  Run.ofExcept (numericOperand ⟨inner.1, inner.2⟩)
  pure (.negate ⟨inner.1, inner.2⟩)

def denied (d : Descent) (word : Span) : Parse Ast := do
  advance
  endUnit d word
  operandAfter word "not"
  let inner ← captureSpan d.parseExprOperand
  pure (.not ⟨inner.1, inner.2⟩)

def bracket (d : Descent) : Parse Ast := do
  let group ← captureSpan (grouped d)
  endUnit d group.1
  pure group.2.item

theorem operandBody_group (opened : p.peek = .lParen) (more : p.peekAt 1 ≠ .rParen) :
    operandBody d p = bracket d p := by
  have opens : (p.peek.is .lParen && !(p.peekAt 1).is .rParen) = true := by
    have shut : (p.peekAt 1).is .rParen = false := by
      rw [← Bool.not_eq_true, is_rParen]
      exact more
    rw [is_lParen.mpr opened, shut]
    rfl
  unfold operandBody
  rw [Run.get_bind, if_pos opens]
  rfl

theorem operandBody_eq (h : p.peek = .lParen → p.peekAt 1 = .rParen) : operandBody d p =
    (if p.signedNumeral.isSome then parseAtom d
    else
      match p.peek with
      | .op (.binary (.arith .sub)) => negated d p.span
      | .op .assign => Run.fail (p.error assignIsNoOperator)
      | .op op => Run.fail (p.error ("`" ++ op.display ++ "` is an operator and needs an operand on each side"))
      | .word (.plain s) => if s = "not" then denied d p.span else parseAtom d
      | _ => parseAtom d) p := by
  have opens : ¬(p.peek.is .lParen && !(p.peekAt 1).is .rParen) = true := by
    intro opens
    obtain ⟨opened, more⟩ := Bool.and_eq_true_iff.mp opens
    rw [is_rParen.mpr (h (is_lParen.mp opened))] at more
    cases more
  unfold operandBody
  rw [Run.get_bind, if_neg opens]
  rfl

theorem not_lParen {token : Token} (peek : p.peek = token) (ne : token ≠ .lParen) :
    p.peek = .lParen → p.peekAt 1 = .rParen := by
  intro opened
  exact absurd (peek.symm.trans opened) ne

theorem operandBody_minus (peek : p.peek = minusToken) (unsigned : p.signedNumeral.isSome = false) :
    operandBody d p = negated d p.span p := by
  rw [operandBody_eq (not_lParen peek fun h => by cases h), unsigned, peek]
  rfl

theorem operandBody_not (peek : p.peek = notToken) : operandBody d p = denied d p.span p := by
  have unsigned : p.signedNumeral = none := by simp [Parser.signedNumeral, peek, notToken]
  rw [operandBody_eq (not_lParen peek fun h => by cases h), unsigned, peek]
  rfl

theorem operandBody_operator {op : Operator} (peek : p.peek = .op op) (ne : p.peek ≠ minusToken)
    (unsigned : p.signedNumeral.isSome = false) : ∃ e, operandBody d p = some (.error e, p) := by
  rw [operandBody_eq (not_lParen peek nofun), unsigned, peek]
  rw [peek] at ne
  cases op with
  | binary op =>
    cases op with
    | arith op =>
      cases op with
      | sub => exact absurd rfl ne
      | _ => exact ⟨_, rfl⟩
    | _ => exact ⟨_, rfl⟩
  | _ => exact ⟨_, rfl⟩

theorem operandBody_atom (unit : p.peek = .lParen → p.peekAt 1 = .rParen)
    (signed : ∀ op, p.peek = .op op → p.signedNumeral.isSome) (ne : p.peek ≠ notToken) :
    operandBody d p = parseAtom d p := by
  rw [operandBody_eq unit]
  by_cases some : p.signedNumeral.isSome = true
  · rw [if_pos some]
  · rw [if_neg some]
    cases peek : p.peek with
    | op op => exact absurd (signed op peek) some
    | word w =>
      cases w with
      | plain s =>
        have word : s ≠ "not" := by
          rintro rfl
          exact ne peek
        dsimp only
        rw [if_neg word]
      | _ => rfl
    | _ => rfl

theorem asPlainWord_not {token : Token} : token.asPlainWord = some "not" ↔ token = notToken := by
  cases token with
  | word w => cases w <;> simp [Token.asPlainWord, notToken]
  | _ => simp [Token.asPlainWord, notToken]

/-! ### What is read is written -/

theorem opened {token : Token} (fit : Fit source tokens height (level + 1) (tokens.length + 1) p)
    (peek : p.deeper.peek = token) (ne : token ≠ .eof) (written : e.Written streams p.deeper.next t) :
    Moves p.deeper t ∧ p.deeper.rest = .mk token p.deeper.span :: e.tokens ++ t.rest ∧
      e.Stands streams p.tokens p.at' (p.depth + 1) (p.pos + 1) := by
  have limit := fit.level
  have here : p.deeper.rest = .mk p.deeper.peek p.deeper.span :: p.deeper.next.rest :=
    Parser.rest_of_peek (by rwa [peek])
  refine ⟨Parser.moves_next.trans written.moves, ?_, ?_⟩
  · rw [here, peek, written.rest]
    rfl
  · apply stands_next (by omega) written
    rw [rest_deeper] at here
    exact Parser.lt_of_rest here

theorem tokens_of_operand (operands : OperandsRead source tokens height level streams d)
    (fit : Fit source tokens height level (tokens.length + 1) p)
    (operand : (climbing streams).Operand p e t) : e.tokens ≠ [] := by
  intro none
  have lt := operands.grows fit operand
  have pos := Parser.pos_of_rest operand.2.moves operand.2.rest
  rw [none, List.length_nil] at pos
  omega

theorem bracket_sound (operands : OperandsRead source tokens height level streams d)
    (proper : ∀ l ∈ tokens, l.token.isEof = false)
    (fit : Fit source tokens height (level + 1) (tokens.length + 1) p) (peek : p.deeper.peek = .lParen)
    (h : bracket d p.deeper = some (.ok a, t)) :
    ∃ e, (climbing streams).Operand p e t.shallower ∧ e.ast = a := by
  have limit := fit.level
  have shallow : p.depth < Lex.nestingDepthLimit := by omega
  obtain ⟨group, u, ran, h⟩ := Run.bind_eq_ok.mp h
  obtain ⟨_, v, ended, h⟩ := Run.bind_eq_ok.mp h
  cases h
  obtain ⟨-, rfl⟩ := endUnit_ok.mp ended
  obtain ⟨e, m, climbs, closed, rfl, eq⟩ := grouped_sound operands proper fit.deeper.1 (captureSpan_ok.mp ran).1
  have written := written_of_climbs climbs
  obtain ⟨moves, rest, stands⟩ := opened fit peek nofun written
  refine ⟨.group p.deeper.span e m.span, ⟨rfl, ?_⟩, ?_⟩
  · apply written_shallower (e := .group p.deeper.span e m.span) shallow
      (moves.trans Parser.moves_next) _ written.ordered ⟨shallow, stands⟩ written.clear
    have close := Parser.rest_of_peek (p := m) (by simp [closed])
    rw [rest, close, closed]
    simp [Expr.tokens]
  · rw [eq]
    rfl

theorem negated_sound (operands : OperandsRead source tokens height level streams d)
    (fit : Fit source tokens height (level + 1) (tokens.length + 1) p) (peek : p.deeper.peek = minusToken)
    (unsigned : p.deeper.signedNumeral.isSome = false)
    (h : negated d p.deeper.span p.deeper = some (.ok a, t)) :
    ∃ e, (climbing streams).Operand p e t.shallower ∧ e.ast = a := by
  have limit := fit.level
  have shallow : p.depth < Lex.nestingDepthLimit := by omega
  have next := fit.deeper.1.moves (Parser.moves_next (s := p.deeper))
  unfold negated advance at h
  rw [Run.modify_bind] at h
  obtain ⟨_, u, ahead, h⟩ := Run.bind_eq_ok.mp h
  obtain ⟨-, rfl⟩ := operandAfter_ok.mp ahead
  obtain ⟨inner, v, ran, h⟩ := Run.bind_eq_ok.mp h
  obtain ⟨ran, span⟩ := captureSpan_ok.mp ran
  obtain ⟨_, w, numeric, h⟩ := Run.bind_eq_ok.mp h
  cases h
  obtain ⟨passed, rfl⟩ := Prod.mk.inj (Option.some.inj numeric)
  obtain ⟨e, operand, ast⟩ := operands.sound next ran
  obtain ⟨moves, rest, stands⟩ := opened fit peek nofun operand.2
  refine ⟨.minus p.deeper.span e, ⟨rfl, ?_⟩, ?_⟩
  · apply written_shallower (e := .minus p.deeper.span e) shallow moves rest
      ⟨operand.1, operand.2.ordered⟩ ⟨shallow, ?_, stands⟩ ⟨?_, operand.2.clear⟩
    · intro fused
      rw [← Bool.not_eq_true] at unsigned
      apply unsigned
      apply (signedNumeral_iff rest).mpr
      exact (fused_append (tokens_of_operand operands next operand)).mpr fused
    · rw [ast]
      exact numericOperand_iff.mp passed
  · have whole := captured operands next operand
    rw [span, whole, ← ast]
    rfl

theorem denied_sound (operands : OperandsRead source tokens height level streams d)
    (fit : Fit source tokens height (level + 1) (tokens.length + 1) p) (peek : p.deeper.peek = notToken)
    (h : denied d p.deeper.span p.deeper = some (.ok a, t)) :
    ∃ e, (climbing streams).Operand p e t.shallower ∧ e.ast = a := by
  have limit := fit.level
  have shallow : p.depth < Lex.nestingDepthLimit := by omega
  have next := fit.deeper.1.moves (Parser.moves_next (s := p.deeper))
  unfold denied advance at h
  rw [Run.modify_bind] at h
  obtain ⟨_, u, apart, h⟩ := Run.bind_eq_ok.mp h
  obtain ⟨gap, rfl⟩ := endUnit_ok.mp apart
  obtain ⟨_, u, ahead, h⟩ := Run.bind_eq_ok.mp h
  obtain ⟨-, rfl⟩ := operandAfter_ok.mp ahead
  obtain ⟨inner, v, ran, h⟩ := Run.bind_eq_ok.mp h
  obtain ⟨ran, span⟩ := captureSpan_ok.mp ran
  cases h
  obtain ⟨e, operand, ast⟩ := operands.sound next ran
  obtain ⟨moves, rest, stands⟩ := opened fit peek nofun operand.2
  refine ⟨.not p.deeper.span e, ⟨rfl, ?_⟩, ?_⟩
  · apply written_shallower (e := .not p.deeper.span e) shallow moves rest
      ⟨operand.1, operand.2.ordered⟩ ⟨shallow, stands⟩ ⟨?_, operand.2.clear⟩
    intro touches
    rw [← Bool.not_eq_true] at gap
    apply gap
    apply touchesAfter_iff.mpr
    rw [operand.2.rest]
    exact (touches_append (tokens_of_operand operands next operand)).mpr touches
  · have whole := captured operands next operand
    rw [span, whole, ← ast]
    rfl

theorem operandBody_sound (sound : Sound source height level (tokens.length + 1) d)
    (same : d = descend streams level) (operands : OperandsRead source tokens height level streams d)
    (proper : ∀ l ∈ tokens, l.token.isEof = false)
    (fit : Fit source tokens height (level + 1) (tokens.length + 1) p)
    (h : operandBody d p.deeper = some (.ok a, t)) :
    ∃ e, (climbing streams).Operand p e t.shallower ∧ e.ast = a := by
  by_cases group : p.deeper.peek = .lParen ∧ p.deeper.peekAt 1 ≠ .rParen
  · rw [operandBody_group group.1 group.2] at h
    exact bracket_sound operands proper fit group.1 h
  have unit : p.deeper.peek = .lParen → p.deeper.peekAt 1 = .rParen := by
    intro opened
    by_contra more
    exact group ⟨opened, more⟩
  by_cases word : p.deeper.peek = notToken
  · rw [operandBody_not word] at h
    exact denied_sound operands fit word h
  by_cases signed : ∀ op, p.deeper.peek = .op op → p.deeper.signedNumeral.isSome
  · rw [operandBody_atom unit signed word] at h
    obtain ⟨run, written⟩ := atom_written sound same fit h (by
      rw [← peek_deeper]
      exact fun eq => word (asPlainWord_not.mp eq))
    exact ⟨.atom run a, ⟨rfl, written⟩, rfl⟩
  · obtain ⟨op, operator⟩ := not_forall.mp signed
    obtain ⟨peek, unsigned⟩ := Classical.not_imp.mp operator
    have unsigned := Bool.not_eq_true _ ▸ unsigned
    by_cases minus : p.deeper.peek = minusToken
    · rw [operandBody_minus minus unsigned] at h
      exact negated_sound operands fit minus unsigned h
    · obtain ⟨error, refused⟩ := operandBody_operator (d := d) peek minus unsigned
      rw [refused] at h
      cases h

/-! ### What is written is read -/

theorem written_next {token : Token} {at' : Span} {us : List Lexeme}
    (fit : Fit source tokens height (level + 1) (tokens.length + 1) p)
    (rest : p.rest = .mk token at' :: (e.tokens ++ us)) (ordered : e.Ordered) (clear : e.Clear)
    (stands : e.Stands streams p.tokens p.at' (p.depth + 1) (p.pos + 1)) :
    p.deeper.peek = token ∧ p.deeper.span = at' ∧ ∃ m, m.rest = us ∧ Moves p.deeper m ∧
      e.Written streams p.deeper.next m := by
  have limit := fit.level
  have shallow : p.depth < Lex.nestingDepthLimit := by omega
  have here : p.deeper.rest = .mk token at' :: (e.tokens ++ us) := rest_deeper.trans rest
  obtain ⟨peek, span, next, pos⟩ := Parser.rest_cons here
  obtain ⟨m, moves, there, -⟩ := Parser.exists_moves next
  have step : Moves p.deeper p.deeper.next := Parser.moves_next
  refine ⟨peek, span, m, there, step.trans moves, ⟨moves, by rw [next, there], ordered, ?_, clear⟩⟩
  rw [step.tokens, step.origin, step.depth, pos, deeper_eq shallow]
  exact stands

theorem unshallow {m : Parser} (shallow : p.depth < Lex.nestingDepthLimit) (written : e.Written streams p q)
    (rest : m.rest = q.rest) (moves : Moves p.deeper m) : m = q.deeper := by
  have down := moves_deeper shallow written.moves
  have same : q.deeper.rest = q.rest := rest_deeper
  have first := congrArg List.length rest
  rw [← same, Parser.rest, Parser.rest, List.length_drop, List.length_drop, moves.tokens, down.tokens] at first
  have inside := m.inside
  have inside' := q.deeper.inside
  rw [moves.tokens] at inside
  rw [down.tokens] at inside'
  exact Parser.ext_of (moves.tokens.trans down.tokens.symm) (moves.origin.trans down.origin.symm)
    (moves.depth.trans down.depth.symm) (by omega)

theorem atom_complete {run : List Lexeme} (sound : Sound source height level (tokens.length + 1) d)
    (same : d = descend streams level) (fit : Fit source tokens height (level + 1) (tokens.length + 1) p)
    (written : (Expr.atom run a).Written streams p q) :
    operandBody d p.deeper = some (.ok a, q.deeper) ∧ p.pos < q.pos := by
  have limit := fit.level
  obtain ⟨shallow, r, t, ⟨stream, origin, depth, pos⟩, ne, read, stop⟩ := written.stands
  have here : r = p.deeper := by
    apply Parser.ext_of <;> rw [deeper_eq shallow]
    · exact stream
    · exact origin
    · exact depth
    · exact pos
  subst here
  have n : Lex.nestingDepthLimit - (p.depth + 1) = level := by omega
  rw [n, ← same] at read
  obtain ⟨moves, tree⟩ := moves_of_reads (reads_parseAtom sound fit.deeper.1) read
  have there : t = q.deeper := by
    have down := moves_deeper shallow written.moves
    have far := Parser.pos_of_rest written.moves written.rest
    have far' : q.deeper.pos = q.pos := by
      rw [deeper_eq (by rw [written.moves.depth]; exact shallow)]
    apply Parser.ext_of (moves.tokens.trans down.tokens.symm) (moves.origin.trans down.origin.symm)
      (moves.depth.trans down.depth.symm)
    rw [far', far, stop]
    rfl
  subst there
  have atom := read
  rw [same] at atom
  obtain ⟨unit, -, signed⟩ := atom_starts atom
  have word : p.deeper.peek ≠ notToken := fun eq => ne (asPlainWord_not.mpr eq)
  rw [operandBody_atom unit signed word]
  refine ⟨read, ?_⟩
  have lt := tree.1
  rw [fit.deeper.2] at lt
  rwa [show q.deeper.pos = q.pos by rw [deeper_eq (by rw [written.moves.depth]; exact shallow)]] at lt

theorem starts {root : Option (Infix × Span)} (h : (climbing streams).Derives p e root q) :
    p.peek ≠ .rParen := by
  induction h with
  | @operand s t x operand =>
    have rest := operand.2.rest
    cases x with
    | atom run value =>
      obtain ⟨-, r, t, ⟨stream, -, -, pos⟩, -, read, -⟩ := operand.2.stands
      have same : r.peek = s.peek := by simp [Parser.peek, Parser.peekAt, stream, pos]
      rw [← same]
      exact (atom_starts read).2.1
    | group opened inner closed => exact fun eq => by cases (Parser.rest_cons rest).1.symm.trans eq
    | minus sign operand => exact fun eq => by cases (Parser.rest_cons rest).1.symm.trans eq
    | not word operand => exact fun eq => by cases (Parser.rest_cons rest).1.symm.trans eq
    | binary left op sign right => cases operand.1
  | node _ _ _ _ _ _ left _ => exact left

theorem bracket_complete {opening closing : Span} {inner : Expr}
    (operands : OperandsRead source tokens height level streams d)
    (proper : ∀ l ∈ tokens, l.token.isEof = false)
    (fit : Fit source tokens height (level + 1) (tokens.length + 1) p)
    (written : (Expr.group opening inner closing).Written streams p q) (apart : q.peek.isAtomStart = false) :
    operandBody d p.deeper = some (.ok inner.ast, q.deeper) := by
  have limit := fit.level
  obtain ⟨shallow, stands⟩ := written.stands
  have rest : p.rest = .mk .lParen opening :: (inner.tokens ++ .mk .rParen closing :: q.rest) := by
    rw [written.rest]
    simp [Expr.tokens]
  obtain ⟨peek, -, m, there, moves, within⟩ := written_next fit rest written.ordered written.clear stands
  obtain ⟨closed, -, after, -⟩ := Parser.rest_cons there
  have derived := derives_iff.mpr ⟨rfl, within⟩
  have more : p.deeper.peekAt 1 ≠ .rParen := by
    rw [peekAt_one (rest_deeper.trans rest)]
    exact starts derived
  have stops : (climbing streams).Stops 0 m := stops_of_other fun op => by simp [closed]
  have climbs : (climbing streams).Climbs 0 p.deeper.next inner m :=
    Climbing.climbs_iff.mpr ⟨_, derived, fun _ _ => Nat.zero_le _, stops⟩
  have back : m.next = q.deeper := unshallow shallow written after (moves.trans Parser.moves_next)
  have whole := grouped_complete operands proper fit.deeper.1 climbs closed
  rw [back] at whole
  have ended : endUnit d (p.deeper.span.join q.deeper.prevByteSpan) q.deeper = some (.ok (), q.deeper) := by
    apply endUnit_ok.mpr
    refine ⟨?_, rfl⟩
    rw [← Bool.not_eq_true, touchesAfter_iff]
    intro touches
    rw [← peek_deeper] at apart
    cases here : q.deeper.rest with
    | nil =>
      rw [here] at touches
      exact touches
    | cons l ts =>
      rw [here] at touches
      obtain ⟨token, at'⟩ := l
      rw [(Parser.rest_cons here).1] at apart
      exact absurd (touches.1.symm.trans apart) (by decide)
  have capture : captureSpan (grouped d) p.deeper =
      some (.ok (p.deeper.span.join q.deeper.prevByteSpan, inner.spanned), q.deeper) :=
    captureSpan_ok.mpr ⟨whole, rfl⟩
  rw [operandBody_group peek more]
  unfold bracket
  rw [Run.bind_ok capture, Run.bind_ok ended]
  rfl

theorem negated_complete {sign : Span} (operands : OperandsRead source tokens height level streams d)
    (proper : ∀ l ∈ tokens, l.token.isEof = false)
    (fit : Fit source tokens height (level + 1) (tokens.length + 1) p)
    (written : (Expr.minus sign e).Written streams p q) (apart : q.peek.isAtomStart = false) :
    operandBody d p.deeper = some (.ok (.negate e.spanned), q.deeper) := by
  have limit := fit.level
  obtain ⟨shallow, unfused, stands⟩ := written.stands
  obtain ⟨bare, ordered⟩ := written.ordered
  obtain ⟨numeric, clear⟩ := written.clear
  obtain ⟨peek, span, m, there, moves, within⟩ := written_next fit written.rest ordered clear stands
  have back : m = q.deeper := unshallow shallow written there moves
  subst back
  have next := fit.deeper.1.moves (Parser.moves_next (s := p.deeper))
  have operand : (climbing streams).Operand p.deeper.next e q.deeper := ⟨bare, within⟩
  have unsigned : p.deeper.signedNumeral.isSome = false := by
    rw [← Bool.not_eq_true]
    intro signed
    have fused := (signedNumeral_iff (rest_deeper.trans written.rest)).mp signed
    exact unfused ((fused_append (tokens_of_operand operands next operand)).mp fused)
  rw [← peek_deeper] at apart
  have read : captureSpan d.parseExprOperand p.deeper.next = some (.ok (e.span, e.ast), q.deeper) :=
    captureSpan_ok.mpr ⟨operands.complete next operand apart, (captured operands next operand).symm⟩
  have more := unended proper next (lt_of_lt_of_le (operands.grows next operand) (by
    have inside := q.deeper.inside
    rwa [within.moves.tokens] at inside))
  have ahead : operandAfter p.deeper.span "-" p.deeper.next = some (.ok (), p.deeper.next) :=
    operandAfter_ok.mpr ⟨more, rfl⟩
  rw [operandBody_minus peek unsigned]
  unfold negated advance
  rw [Run.modify_bind, Run.bind_ok ahead, Run.bind_ok read]
  dsimp only
  rw [numericOperand_iff.mpr numeric]
  rfl

theorem denied_complete {word : Span} (operands : OperandsRead source tokens height level streams d)
    (proper : ∀ l ∈ tokens, l.token.isEof = false)
    (fit : Fit source tokens height (level + 1) (tokens.length + 1) p)
    (written : (Expr.not word e).Written streams p q) (apart : q.peek.isAtomStart = false) :
    operandBody d p.deeper = some (.ok (.not e.spanned), q.deeper) := by
  have limit := fit.level
  obtain ⟨shallow, stands⟩ := written.stands
  obtain ⟨bare, ordered⟩ := written.ordered
  obtain ⟨gap, clear⟩ := written.clear
  obtain ⟨peek, span, m, there, moves, within⟩ := written_next fit written.rest ordered clear stands
  have back : m = q.deeper := unshallow shallow written there moves
  subst back
  have next := fit.deeper.1.moves (Parser.moves_next (s := p.deeper))
  have operand : (climbing streams).Operand p.deeper.next e q.deeper := ⟨bare, within⟩
  have loose : endUnit d p.deeper.span p.deeper.next = some (.ok (), p.deeper.next) := by
    apply endUnit_ok.mpr
    refine ⟨?_, rfl⟩
    rw [← Bool.not_eq_true, touchesAfter_iff, within.rest, span,
      touches_append (tokens_of_operand operands next operand)]
    exact gap
  rw [← peek_deeper] at apart
  have read : captureSpan d.parseExprOperand p.deeper.next = some (.ok (e.span, e.ast), q.deeper) :=
    captureSpan_ok.mpr ⟨operands.complete next operand apart, (captured operands next operand).symm⟩
  have more := unended proper next (lt_of_lt_of_le (operands.grows next operand) (by
    have inside := q.deeper.inside
    rwa [within.moves.tokens] at inside))
  have ahead : operandAfter p.deeper.span "not" p.deeper.next = some (.ok (), p.deeper.next) :=
    operandAfter_ok.mpr ⟨more, rfl⟩
  rw [operandBody_not peek]
  unfold denied advance
  rw [Run.modify_bind, Run.bind_ok loose, Run.bind_ok ahead, Run.bind_ok read]
  rfl

/-- By induction from the nesting limit, where no operand is let in. -/
theorem operandsRead (streamsOk : StreamsOk source height streams)
    (proper : ∀ l ∈ tokens, l.token.isEof = false) (level : ℕ) :
    OperandsRead source tokens height level streams (descend streams level) := by
  induction level with
  | zero =>
    have stopped {p : Parser} (fit : Fit source tokens height 0 (tokens.length + 1) p) :
        ¬p.depth < Lex.nestingDepthLimit := by
      have limit := fit.level
      omega
    have barred {p q : Parser} {e : Expr} (fit : Fit source tokens height 0 (tokens.length + 1) p)
        (operand : (climbing streams).Operand p e q) : False := by
      have stands := operand.2.stands
      cases e with
      | binary left op sign right => cases operand.1
      | _ => exact stopped fit stands.1
    refine ⟨fun fit operand => (barred fit operand).elim, ?_, fun fit operand => (barred fit operand).elim⟩
    intro p q a fit h
    exact absurd (nested_ok.mp h).1 (stopped fit)
  | succ level ih =>
    have sound := @sound_descend source height streams streamsOk level (tokens.length + 1)
    have complete {p q : Parser} {e : Expr} (fit : Fit source tokens height (level + 1) (tokens.length + 1) p)
        (operand : (climbing streams).Operand p e q) (apart : q.peek.isAtomStart = false) :
        operandBody (descend streams level) p.deeper = some (.ok e.ast, q.deeper) := by
      cases e with
      | atom run value => exact (atom_complete sound rfl fit operand.2).1
      | group opening inner closing =>
        have whole := bracket_complete ih proper fit operand.2 apart
        exact whole
      | minus sign e => exact negated_complete ih proper fit operand.2 apart
      | not word e => exact denied_complete ih proper fit operand.2 apart
      | binary left op sign right => cases operand.1
    constructor
    · intro p q e fit operand
      have far := Parser.pos_of_rest operand.2.moves operand.2.rest
      cases e with
      | atom run value => exact (atom_complete sound rfl fit operand.2).2
      | binary left op sign right => cases operand.1
      | _ =>
        simp only [Expr.tokens, List.length_cons, List.length_append] at far
        omega
    · intro p q a fit h
      obtain ⟨-, t, body, -, rfl⟩ := nested_ok.mp h
      exact operandBody_sound sound rfl ih proper fit body
    · intro p q e fit operand apart
      have limit := fit.level
      have shallow : p.depth < Lex.nestingDepthLimit := by omega
      have shallow' : q.depth < Lex.nestingDepthLimit := by
        rw [operand.2.moves.depth]
        exact shallow
      refine nested_ok.mpr ⟨shallow, q.deeper, complete fit operand apart, ?_, (shallower_deeper shallow').symm⟩
      rw [deeper_eq shallow']
      exact Nat.succ_ne_zero _

end Operands

/-! ## Whole brackets -/

theorem runComplete_ok {α : Type} {body : Parse α} {tokens : List Lexeme} {at' : Span}
    {leftover : Token → String} {a : α} : runComplete tokens at' leftover body = some (.ok a) ↔
      ∃ q, body (Parser.start tokens at') = some (.ok a, q) ∧ q.peek.is .eof = true := by
  unfold runComplete Run.outcome
  rw [Option.map_eq_some_iff]
  constructor
  · rintro ⟨⟨r, t⟩, ran, eq⟩
    cases eq
    obtain ⟨v, q, read, ended⟩ := Run.bind_eq_ok.mp ran
    rw [Run.get_bind] at ended
    split at ended
    · next end' =>
      cases ended
      exact ⟨_, read, end'⟩
    · cases ended
  · rintro ⟨q, read, ended⟩
    refine ⟨(.ok a, q), ?_, rfl⟩
    rw [Run.bind_ok read, Run.get_bind, if_pos ended]
    rfl

theorem exprBody_ok {d : Descent} {a : Ast} :
    exprBody d p = some (.ok a, q) ↔ ∃ expr, parseExpr d p = some (.ok expr, q) ∧ expr.item = a := by
  unfold exprBody
  rw [Run.bind_eq_ok]
  constructor
  · rintro ⟨expr, t, ran, eq⟩
    cases eq
    exact ⟨expr, ran, rfl⟩
  · rintro ⟨expr, ran, rfl⟩
    exact ⟨expr, q, ran, rfl⟩

namespace ExprTokens

def parse (b : ExprTokens) (more : ℕ) : Option (Except ParseError Ast) :=
  (Descent.streams (heights b.tokens + more + 1)).parseExprBlock b.tokens b.span

/-- The tree is written in these tokens as the precedence table prescribes. -/
structure Yields (b : ExprTokens) (more : ℕ) (e : Expr) : Prop where
  tokens : e.tokens = b.tokens
  ordered : e.Ordered
  stands : e.Stands (Descent.streams (heights b.tokens + more)) b.tokens b.span 0 0

theorem laid_somewhere (b : ExprTokens) : ∃ whole : Span, whole.Inside whole ∧ Laid whole b.tokens := by
  by_cases none : b.tokens = []
  · refine ⟨⟨0, 0⟩, ⟨le_refl _, le_refl _, le_refl _⟩, ?_⟩
    rw [none]
    exact .intro .nil nofun nofun nofun nofun
  · obtain ⟨l, mem⟩ := List.exists_mem_of_ne_nil _ none
    have inside := b.laid.inside l mem
    exact ⟨b.span, ⟨le_refl _, le_trans inside.start (le_trans inside.ordered inside.stop), le_refl _⟩, b.laid⟩

theorem parse_ok {b : ExprTokens} {more : ℕ} {tree : Ast} : b.parse more = some (.ok tree) ↔
    b.tokens ≠ [] ∧ ∃ expr q, parseExpr (descend (Descent.streams (heights b.tokens + more))
      Lex.nestingDepthLimit) (Parser.start b.tokens b.span) = some (.ok expr, q) ∧
      q.peek.is .eof = true ∧ expr.item = tree := by
  have unfolded : b.parse more = exprBlock (descend (Descent.streams (heights b.tokens + more))
    Lex.nestingDepthLimit) b.tokens b.span := rfl
  rw [unfolded]
  unfold exprBlock
  by_cases none : b.tokens = []
  · rw [none]
    exact ⟨nofun, fun h => absurd rfl h.1⟩
  · rw [if_neg (by simp [none]), runComplete_ok]
    constructor
    · rintro ⟨q, ran, ended⟩
      obtain ⟨expr, read, item⟩ := exprBody_ok.mp ran
      exact ⟨none, expr, q, read, ended, item⟩
    · rintro ⟨-, expr, q, read, ended, item⟩
      exact ⟨q, exprBody_ok.mpr ⟨expr, read, item⟩, ended⟩

/-- A bracket is parsed to the tree that the table prescribes for its tokens. It is refused if there
is none, or an operator refuses its operand. -/
theorem parse_iff (b : ExprTokens) (more : ℕ) (tree : Ast) : b.parse more = some (.ok tree) ↔
    ∃ e : Expr, b.Yields more e ∧ e.Clear ∧ e.ast = tree := by
  obtain ⟨whole, inside, laid⟩ := b.laid_somewhere
  have streamsOk := @streamsOk_streams whole (heights b.tokens + more)
  have operands := operandsRead streamsOk b.proper Lex.nestingDepthLimit
  have reads := climbsRead operands b.proper (Nat.le_refl 7) (Nat.zero_le 6)
  have fit := fit_start laid inside (Nat.le_add_right (heights b.tokens) more) b.span
  rw [parse_ok]
  constructor
  · rintro ⟨-, expr, q, read, ended, rfl⟩
    obtain ⟨e, climbs, rfl⟩ := reads.sound fit read
    have written := written_of_climbs climbs
    have done : q.rest = [] := by
      cases rest : q.rest with
      | nil => rfl
      | cons l ts =>
        have going := unended b.proper (fit.moves written.moves) (Parser.lt_of_rest rest)
        rw [going] at ended
        cases ended
    refine ⟨e, ⟨?_, written.ordered, written.stands⟩, written.clear, rfl⟩
    have all := written.rest
    rw [done, List.append_nil] at all
    exact all.symm
  · rintro ⟨e, yields, clear, rfl⟩
    have all : (Parser.start b.tokens b.span).rest = e.tokens ++ [] := by
      rw [yields.tokens, List.append_nil]
      rfl
    obtain ⟨q, moves, done, -⟩ := Parser.exists_moves all
    have written : e.Written (Descent.streams (heights b.tokens + more)) (Parser.start b.tokens b.span) q :=
      ⟨moves, by rw [all, done], yields.ordered, yields.stands, clear⟩
    have ended : q.peek = .eof := Parser.peek_of_nil done
    have stops : (climbing (Descent.streams (heights b.tokens + more))).Stops 0 q :=
      stops_of_other fun op => by simp [ended]
    have climbs := Climbing.climbs_iff.mpr ⟨_, derives_iff.mpr ⟨rfl, written⟩, fun _ _ => Nat.zero_le _, stops⟩
    have halts : Halts q := by
      unfold Halts
      rw [ended]
      exact ⟨rfl, nofun⟩
    have grown := operands.grows_climbs fit climbs
    refine ⟨?_, e.spanned, q, reads.complete fit climbs halts, is_eof.mpr ended, rfl⟩
    intro none
    have inside := q.inside
    rw [moves.tokens] at inside
    have length : b.tokens.length = 0 := by rw [none]; rfl
    have bound : q.pos ≤ b.tokens.length := inside
    omega

/-! ### Refusals -/

theorem laid_flat {whole : Span} {tokens : List Lexeme}
    (ordered : tokens.Pairwise fun a b => a.span.stop ≤ b.span.start)
    (inside : ∀ l ∈ tokens, l.span.Inside whole)
    (flat : ∀ l ∈ tokens, (∀ body, l.token ≠ .expr body) ∧ ∀ parts, l.token ≠ .doubleQuoted parts) :
    Laid whole tokens :=
  .intro ordered inside (fun body _ mem => absurd rfl ((flat _ mem).1 body))
    (fun parts _ mem => absurd rfl ((flat _ mem).2 parts)) fun parts _ mem => absurd rfl ((flat _ mem).2 parts)

/-- `$[foo + 1]`. -/
def wordPlusOne : ExprTokens where
  span := ⟨0, 7⟩
  tokens := [.mk (.word (.plain "foo")) ⟨0, 3⟩, .mk (.op (.binary (.arith .add))) ⟨4, 5⟩,
    .mk (.word (.plain "1")) ⟨6, 7⟩]
  laid := by
    apply laid_flat
    · simp [Lexeme.span]
    · simp only [List.forall_mem_cons, List.not_mem_nil, false_implies, implies_true, and_true]
      exact ⟨⟨by decide, by decide, by decide⟩, ⟨by decide, by decide, by decide⟩, by decide, by decide, by decide⟩
    · simp [Lexeme.token]
  proper := by simp [Lexeme.token, Token.isEof]

/-- `$[not$x]`. -/
def notTouching : ExprTokens where
  span := ⟨0, 5⟩
  tokens := [.mk (.word (.plain "not")) ⟨0, 3⟩, .mk (.variable "x" false) ⟨3, 5⟩]
  laid := by
    apply laid_flat
    · simp [Lexeme.span]
    · simp only [List.forall_mem_cons, List.not_mem_nil, false_implies, implies_true, and_true]
      exact ⟨⟨by decide, by decide, by decide⟩, by decide, by decide, by decide⟩
    · simp [Lexeme.token]
  proper := by simp [Lexeme.token, Token.isEof]

def accepts (b : ExprTokens) : Bool :=
  match b.parse 0 with
  | some (.ok _) => true
  | _ => false

/-- The table has a tree for both, and neither is accepted. -/
theorem yielded_but_refused :
    (∃ e, wordPlusOne.Yields 0 e ∧ ∀ tree, wordPlusOne.parse 0 ≠ some (.ok tree)) ∧
      ∃ e, notTouching.Yields 0 e ∧ ∀ tree, notTouching.parse 0 ≠ some (.ok tree) := by
  have refused (b : ExprTokens) (h : b.accepts = false) (tree : Ast) : b.parse 0 ≠ some (.ok tree) := by
    intro ok
    unfold accepts at h
    rw [ok] at h
    cases h
  constructor
  · refine ⟨.binary (.atom [.mk (.word (.plain "foo")) ⟨0, 3⟩] (.word (.plain "foo"))) (.binary (.arith .add))
      ⟨4, 5⟩ (.atom [.mk (.word (.plain "1")) ⟨6, 7⟩] (.word (.plain "1"))), ⟨rfl, ?_, ?_⟩,
      refused _ (by decide +kernel)⟩
    · exact ⟨trivial, trivial, nofun, nofun⟩
    · refine ⟨⟨by decide, ⟨wordPlusOne.tokens, 0, _, 1, by decide, by decide⟩,
        ⟨wordPlusOne.tokens, 1, wordPlusOne.span, 1, by decide, by decide⟩, ⟨rfl, rfl, rfl, rfl⟩, by decide, rfl, rfl⟩,
        ⟨by decide, ⟨wordPlusOne.tokens, 2, _, 1, by decide, by decide⟩,
        ⟨wordPlusOne.tokens, 3, wordPlusOne.span, 1, by decide, by decide⟩, ⟨rfl, rfl, rfl, rfl⟩, by decide, rfl, rfl⟩⟩
  · refine ⟨.not ⟨0, 3⟩ (.atom [.mk (.variable "x" false) ⟨3, 5⟩] (.variable "x")), ⟨rfl, ⟨rfl, trivial⟩, ?_⟩,
      refused _ (by decide +kernel)⟩
    refine ⟨by decide, by decide, ⟨notTouching.tokens, 1, _, 2, by decide, by decide⟩,
      ⟨notTouching.tokens, 2, notTouching.span, 2, by decide, by decide⟩, ⟨rfl, rfl, rfl, rfl⟩, by decide, rfl, rfl⟩

end ExprTokens

end Ral.Syntax
