import Ral.Syntax.Lossless
import Ral.Syntax.Sealed
import Ral.Syntax.StatementReads

/-! # The parser is total

The descent is sound at every level, by induction from the nesting limit down, and streams of
their own at every height. What a whole stream is parsed to lies where the stream does.
-/

namespace Ral.Syntax
open Parse Descent

section

variable {source : Span} {tokens : List Lexeme} {height level room : ℕ} {s t : Parser} {d : Descent}

/-! ## The descent -/

/-- Streams below `height` are parsed. -/
structure StreamsOk (source : Span) (height : ℕ) (streams : Streams) : Prop where
  block : ∀ {tokens at'}, Laid at' tokens → at'.Inside source → heights tokens < height →
    StreamOk source at' (streams.parseExprBlock tokens at')
  splice : ∀ {tokens at'}, Laid at' tokens → at'.Inside source → heights tokens < height →
    StreamOk source at' (streams.parseSplice tokens at')

theorem sound_keyed (hd : Entries source height level d) (room : ℕ) :
    Sound source height level room (keyed d room) := by
  have hentries : ∀ atom, Entries source height level { d with parseAtomUnchecked := atom } :=
    fun atom => ⟨hd.primary, hd.pattern, hd.operand, hd.arm, hd.block, hd.splice⟩
  induction room with
  | zero =>
    refine ⟨hentries _, ?_⟩
    intro tokens s hfit
    exact absurd hfit.room (Nat.not_lt_zero _)
  | succ room ih => exact ⟨hentries _, fun hfit => reads_atomUnchecked ih hfit⟩

theorem sound_withAtoms (hd : Entries source height level d) (room : ℕ) :
    Sound source height level room (withAtoms d) := by
  refine ⟨⟨hd.primary, hd.pattern, hd.operand, hd.arm, hd.block, hd.splice⟩, ?_⟩
  intro tokens s hfit
  apply Reads.get
  rw [hfit.stream]
  apply (sound_keyed hd _).atom
  exact ⟨hfit.stream, hfit.laid, hfit.low, hfit.level, Nat.lt_succ_self _⟩

theorem deeper_eq (h : s.depth < Lex.nestingDepthLimit) :
    s.deeper = { s with depth := s.depth + 1, shallow := h } := by
  simp [Parser.deeper, h]

theorem Fit.deeper (hfit : Fit source tokens height (level + 1) room s) :
    Fit source tokens height level room s.deeper ∧ s.deeper.pos = s.pos := by
  have hlevel := hfit.level
  rw [deeper_eq (by omega)]
  refine ⟨⟨hfit.stream, hfit.laid, hfit.low, ?_, hfit.room⟩, rfl⟩
  show s.depth + 1 + level = Lex.nestingDepthLimit
  omega

theorem reads_down {body : Parse Ast} (hfit : Fit source tokens height (level + 1) room s)
    (h : ∀ {s}, Fit source tokens height level room s → Reads body s (TreeAt source tokens s)) :
    Reads (nested body) s (TreeAt source tokens s) := by
  apply reads_nested
  intro _
  obtain ⟨hfit', hpos⟩ := hfit.deeper
  apply (h hfit').mono
  intro tree t _ htree
  have hlt := htree.1
  rw [hpos] at hlt
  exact ⟨hlt, htree.2.widen (le_of_eq hpos.symm) (le_refl _)⟩

theorem reads_limit {α : Type} {body : Parse α} {P : α → Parser → Prop}
    (hfit : Fit source tokens height 0 room s) : Reads (nested body) s P := by
  apply reads_nested
  intro hlt
  have hlevel := hfit.level
  omega

theorem sound_descend {streams : Streams} (hstreams : StreamsOk source height streams) (level room : ℕ) :
    Sound source height level room (descend streams level) := by
  induction level generalizing room with
  | zero =>
    apply sound_withAtoms
    exact ⟨reads_limit, reads_limit, reads_limit, fun _ => reads_limit, hstreams.block, hstreams.splice⟩
  | succ level ih =>
    apply sound_withAtoms
    refine ⟨?_, ?_, ?_, ?_, hstreams.block, hstreams.splice⟩
    · intro tokens room s hfit
      exact reads_down hfit (reads_primaryBody (ih room))
    · intro tokens room s hfit
      apply reads_nested
      intro _
      obtain ⟨hfit', hpos⟩ := hfit.deeper
      apply (reads_patternBody (ih room) hfit').mono
      intro _ t _ hlt
      rwa [hpos] at hlt
    · intro tokens room s hfit
      exact reads_down hfit (reads_operandBody (ih room))
    · intro tokens room s label hfit
      exact reads_down hfit (reads_caseArmLambda (ih room))

/-! ## Whole streams -/

theorem fit_start {at' : Span} (hlaid : Laid at' tokens) (hat : at'.Inside source)
    (hheight : heights tokens ≤ height) (origin : Span) :
    Fit source tokens height Lex.nestingDepthLimit (tokens.length + 1) (Parser.start tokens origin) :=
  ⟨rfl, ⟨at', hat, hlaid⟩, hheight, Nat.zero_add _, by simp [Parser.start]⟩

/-- A whole stream has an outcome; a result is what its production read up to where no token but
an end mark is left. -/
theorem runComplete_reads {α : Type} {body : Parse α} {at' : Span} {P : α → Parser → Prop}
    (leftover : Token → String) (h : Reads body (Parser.start tokens at') P) :
    ∃ r, runComplete tokens at' leftover body = some r ∧ ∀ a, r = .ok a →
      ∃ p, body (Parser.start tokens at') = some (.ok a, p) ∧ Moves (Parser.start tokens at') p ∧
        p.peek.is .eof = true ∧ P a p := by
  obtain ⟨r, p, hrun, hm, hp⟩ := h
  cases r with
  | error e =>
    refine ⟨.error e, ?_, fun _ h => by cases h⟩
    show Option.map Prod.fst (Run.bind body _ _) = _
    simp [Run.bind, hrun]
  | ok a =>
    by_cases hend : p.peek.is .eof = true
    · refine ⟨.ok a, ?_, ?_⟩
      · show Option.map Prod.fst (Run.bind body _ _) = _
        simp [Run.bind, hrun, bind, Run.get, hend, pure, Run.pure]
      · intro b hb
        cases hb
        exact ⟨p, hrun, hm, hend, hp a rfl⟩
    · refine ⟨.error (p.error (leftover p.peek)), ?_, fun _ h => by cases h⟩
      show Option.map Prod.fst (Run.bind body _ _) = _
      simp [Run.bind, hrun, bind, Run.get, hend, Run.fail]

theorem streamOk_runComplete {body : Parse Ast} {at' : Span} {leftover : Token → String}
    (hlaid : Laid at' tokens) (h : Reads body (Parser.start tokens at')
      (TreeAt source tokens (Parser.start tokens at'))) :
    StreamOk source at' (runComplete tokens at' leftover body) := by
  obtain ⟨r, hr, hok⟩ := runComplete_reads leftover h
  refine ⟨r, hr, ?_⟩
  intro tree htree
  obtain ⟨p, _, hm, _, hlt, hheld⟩ := hok tree htree
  have hinside := p.inside
  rw [hm.tokens] at hinside
  have hcover := hlaid.cover_whole hlt hinside
  exact (hheld _ _ (le_refl _) (le_refl _) hinside).mono hcover.start hcover.stop

theorem reads_exprBody {at' : Span} (hd : Sound source height Lex.nestingDepthLimit (tokens.length + 1) d)
    (hlaid : Laid at' tokens) (hat : at'.Inside source) (hheight : heights tokens ≤ height) :
    Reads (exprBody d) (Parser.start tokens at') (TreeAt source tokens (Parser.start tokens at')) := by
  apply (reads_parseExpr hd (fit_start hlaid hat hheight _)).bind
  intro expr t _ hexpr
  exact .pure hexpr.tree

theorem streamsOk_streams (height : ℕ) : StreamsOk source height (streams height) := by
  induction height with
  | zero => exact ⟨fun _ _ h => absurd h (Nat.not_lt_zero _), fun _ _ h => absurd h (Nat.not_lt_zero _)⟩
  | succ height ih =>
    constructor
    · intro tokens at' hlaid hat hheight
      have hd := sound_descend ih Lex.nestingDepthLimit (tokens.length + 1)
      show StreamOk source at' (exprBlock _ tokens at')
      unfold exprBlock
      split
      · exact ⟨_, rfl, nofun⟩
      · exact streamOk_runComplete hlaid (reads_exprBody hd hlaid hat (Nat.le_of_lt_succ hheight))
    · intro tokens at' hlaid hat hheight
      have hd := sound_descend ih Lex.nestingDepthLimit (tokens.length + 1)
      exact streamOk_runComplete hlaid
        (reads_parseAtom hd (fit_start hlaid hat (Nat.le_of_lt_succ hheight) _))

end

/-! ## Whole sources

Every source is parsed to an outcome, every stream in it to its last token. What a source is
parsed to lies within it, the wrappers of curried lambdas apart.
-/

/-- Over a whole stream a production has an outcome, and a result leaves end marks alone unread. -/
structure Exhausts {α : Type} (tokens : List Lexeme) (at' : Span) (leftover : Token → String)
    (body : Parse α) : Prop where
  outcome : ∃ r, runComplete tokens at' leftover body = some r
  consumed : ∀ a, runComplete tokens at' leftover body = some (.ok a) →
    ∃ p, body (Parser.start tokens at') = some (.ok a, p) ∧ p.tokens = tokens ∧
      ∀ l ∈ tokens.drop p.pos, l.token.isEof = true

/-- A stream is parsed as each of what a stream is parsed as: a program, the expression of a
block, the atom of a splice. -/
structure Parsed (tokens : List Lexeme) : Prop where
  program : ∀ height at', heights tokens ≤ height → Exhausts tokens at' trailingInput
    (parseProgram (descend (streams height) Lex.nestingDepthLimit))
  expr : ∀ height at' leftover, heights tokens ≤ height → Exhausts tokens at' leftover
    (exprBody (descend (streams height) Lex.nestingDepthLimit))
  atom : ∀ height at', heights tokens ≤ height → Exhausts tokens at' trailingInput
    (parseAtom (descend (streams height) Lex.nestingDepthLimit))

variable {source : Span} {tokens : List Lexeme}

def Terminated (tokens : List Lexeme) : Prop := ∃ init last, tokens = init ++ last ∧
  (∀ l ∈ init, l.token.isEof = false) ∧ ∀ l ∈ last, l.token.isEof = true

theorem Token.isEof_of_is {token : Token} (h : token.is .eof = true) : token.isEof = true := by
  cases token <;> first | rfl | exact absurd h (by simp [Token.is, Token.discriminant])

theorem Terminated.unread (h : Terminated tokens) {p : Parser} (htokens : p.tokens = tokens)
    (hpeek : p.peek.is .eof = true) : ∀ l ∈ tokens.drop p.pos, l.token.isEof = true := by
  obtain ⟨init, last, rfl, hinit, hlast⟩ := h
  have hpast : init.length ≤ p.pos := by
    by_contra hlt
    have hlt : p.pos < init.length := Nat.lt_of_not_le hlt
    have hget : p.tokens[p.pos]? = some init[p.pos] := by
      rw [htokens, List.getElem?_append_left hlt, List.getElem?_eq_getElem hlt]
    have heof := Token.isEof_of_is hpeek
    simp only [Parser.peek, Parser.peekAt, Nat.add_zero, hget] at heof
    rw [hinit _ (List.getElem_mem hlt)] at heof
    cases heof
  intro l hl
  rw [List.drop_append, List.drop_eq_nil_of_le hpast, List.nil_append] at hl
  exact hlast l (List.mem_of_mem_drop hl)

theorem Sealed.terminated (h : Sealed tokens) : Terminated tokens :=
  ⟨tokens, [], (List.append_nil _).symm, h.proper, by simp⟩

theorem Lossless.terminated {text : List Char} (h : Lossless text tokens) : Terminated tokens := by
  obtain ⟨init, rfl, hproper⟩ := h.ends
  refine ⟨init, _, rfl, hproper, ?_⟩
  intro l hl
  rw [List.mem_singleton.mp hl]
  rfl

theorem exhausts_of_reads {α : Type} {body : Parse α} {at' : Span} {leftover : Token → String}
    {P : α → Parser → Prop} (hterminated : Terminated tokens)
    (h : Reads body (Parser.start tokens at') P) : Exhausts tokens at' leftover body := by
  obtain ⟨r, hr, hok⟩ := runComplete_reads leftover h
  refine ⟨⟨r, hr⟩, ?_⟩
  intro a ha
  rw [hr] at ha
  obtain ⟨p, hrun, hm, hend, _⟩ := hok a (Option.some.inj ha)
  exact ⟨p, hrun, hm.tokens, hterminated.unread hm.tokens hend⟩

theorem parsed_of_laid {at' : Span} (hlaid : Laid at' tokens) (hat : at'.Inside source)
    (hterminated : Terminated tokens) : Parsed tokens := by
  have hd (height : ℕ) : Sound source height Lex.nestingDepthLimit (tokens.length + 1)
      (descend (streams height) Lex.nestingDepthLimit) := sound_descend (streamsOk_streams height) _ _
  constructor
  · intro height origin hheight
    exact exhausts_of_reads hterminated (reads_parseProgram (hd height) (fit_start hlaid hat hheight origin))
  · intro height origin leftover hheight
    apply exhausts_of_reads hterminated
    apply (reads_parseExpr (hd height) (fit_start hlaid hat hheight origin)).bind
    intro expr t _ hexpr
    exact .pure hexpr.tree
  · intro height origin hheight
    exact exhausts_of_reads hterminated (reads_parseAtom (hd height) (fit_start hlaid hat hheight origin))

theorem Laid.within {whole : Span} {inner : List Lexeme} (h : Laid whole tokens)
    (hinner : Within inner tokens) (hwhole : whole.Inside source) :
    ∃ at', Laid at' inner ∧ at'.Inside source := by
  induction hinner with
  | refl => exact ⟨whole, h, hwhole⟩
  | expr _ hmem ih =>
    obtain ⟨at', hlaid, hat⟩ := ih h
    exact ⟨_, hlaid.expr hmem, (hlaid.inside _ hmem).trans hat⟩
  | splice _ hmem hpart ih =>
    obtain ⟨at', hlaid, hat⟩ := ih h
    exact ⟨_, hlaid.splice hmem hpart, ((hlaid.part hmem _ hpart).trans (hlaid.inside _ hmem)).trans hat⟩

/-- Every source has an outcome: an error, or statements that lie within it. Each stream it lexes
to is parsed to its end. -/
theorem parse_total (rules : PathRules) (source : String) :
    (∀ lexed, tokenize rules .requireClosed source = some (.ok lexed) →
      ∀ tokens, Within tokens lexed.tokens → Parsed tokens) ∧
    ∃ result, parse rules source = some result ∧ ∀ stmts, result = .ok stmts →
      ∀ stmt ∈ stmts, PlacedIn ⟨0, Text.size source.toList⟩ .borrowed
        ⟨0, Text.size source.toList⟩ stmt := by
  have hwhole : Span.Inside ⟨0, Text.size source.toList⟩ ⟨0, Text.size source.toList⟩ :=
    ⟨le_refl _, Nat.zero_le _, le_refl _⟩
  obtain ⟨result, hresult, hlossless⟩ := (tokenize_total_and_lossless rules .requireClosed source).2
  constructor
  · intro lexed hlexed tokens hwithin
    rw [hlexed] at hresult
    have hlossless := hlossless lexed (Option.some.inj hresult).symm
    obtain ⟨delims, hstream⟩ := hlossless.covers
    have hlaid := hstream.laid
    rw [Nat.zero_add] at hlaid
    obtain ⟨at', hlaid', hat⟩ := hlaid.within hwithin hwhole
    apply parsed_of_laid hlaid' hat
    rcases tokenize_sealed hlexed tokens hwithin with rfl | hsealed
    · exact hlossless.terminated
    · exact hsealed.terminated
  · unfold parse
    rw [hresult]
    cases result with
    | error e => exact ⟨_, rfl, nofun⟩
    | ok lexed =>
      obtain ⟨delims, hstream⟩ := (hlossless lexed rfl).covers
      have hlaid := hstream.laid
      rw [Nat.zero_add] at hlaid
      have hd : Sound ⟨0, Text.size source.toList⟩ (heights lexed.tokens) Lex.nestingDepthLimit
          (lexed.tokens.length + 1) (descend (streams (heights lexed.tokens)) Lex.nestingDepthLimit) :=
        sound_descend (streamsOk_streams _) _ _
      obtain ⟨r, hr, hok⟩ := runComplete_reads trailingInput
        (reads_parseProgram hd (fit_start hlaid hwhole (le_refl _) (.point 0)))
      refine ⟨r, hr, ?_⟩
      intro stmts hstmts stmt hmem
      obtain ⟨p, _, hm, _, hheld⟩ := hok stmts hstmts
      have hinside := p.inside
      rw [hm.tokens] at hinside
      have hne : 0 < lexed.tokens.length := by
        obtain ⟨init, hinit, _⟩ := (hlossless lexed rfl).ends
        simp [hinit]
      have hcover := hlaid.cover_whole hne (le_refl _)
      exact (hheld stmt hmem 0 _ (le_refl _) hinside (le_refl _)).mono hcover.start hcover.stop

/-! ## Curried lambdas -/

/-- Of a program that is a lambda over two parameters: the span of the statement wrapped around
the second, and the second's own. -/
def wrapperSpans : Option (Except ParseError (List Stmt)) → Option (Span × Span)
  | some (.ok [⟨_, .lambda _ [⟨span, .lambda inner _⟩]⟩]) => some (span, inner.span)
  | _ => none

theorem wrapperSpans_eq {result : Option (Except ParseError (List Stmt))} {span span' : Span}
    (h : wrapperSpans result = some (span, span')) : ∃ outer param inner body,
      result = some (.ok [⟨outer, .lambda param [⟨span, .lambda inner body⟩]⟩]) ∧ inner.span = span' := by
  unfold wrapperSpans at h
  split at h
  · cases h
    exact ⟨_, _, _, _, rfl, rfl⟩
  · cases h

/-- The wrapper of the second parameter starts where the body does, past the parameter. -/
theorem curried_wrapper_borrows : ¬∀ rules source stmts, parse rules source = some (.ok stmts) →
    ∀ stmt ∈ stmts, PlacedIn ⟨0, Text.size source.toList⟩ .contained
      ⟨0, Text.size source.toList⟩ stmt := by
  intro hall
  have hspans : wrapperSpans (parse .posix "\x7b |x y| z \x7d") = some (⟨8, 9⟩, ⟨5, 6⟩) := by decide +kernel
  obtain ⟨outer, param, inner, body, hparse, hinner⟩ := wrapperSpans_eq hspans
  have hplaced := (hall _ _ _ hparse _ (List.mem_singleton.mpr rfl)).placed
  cases hplaced with
  | node _ _ hchildren _ =>
    have hwrapper := hchildren _ (List.mem_singleton.mpr rfl)
    cases hwrapper with
    | node hmarks _ _ _ =>
      have hstart := (hmarks inner.span (List.mem_singleton.mpr rfl)).start
      rw [hinner] at hstart
      exact absurd (show 8 ≤ 5 from hstart) (by decide)
    | curried hborrowed => cases hborrowed
  | curried hborrowed => cases hborrowed

end Ral.Syntax
