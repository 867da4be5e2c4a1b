import Ral.Core.Tolerance
import Ral.Syntax.Quote

/-! # The tolerant lexer

An editor lexes a buffer whose strings and groups may still be open where it ends. Both policies
run the same scanners; what they agree on is proved scanner by scanner.
-/

namespace Ral.Syntax
open Run

/-- Nothing is wrong but strings and groups open where the source ends. -/
def LexErrorKind.onlyOpen : LexErrorKind → Bool
  | .unterminatedString _ _ none => true
  | .unterminatedString _ _ (some inner) => inner.onlyOpen
  | .unterminatedBalanced _ _ _ => true
  | .unclosedDeref _ => false
  | .mismatched _ _ _ => false
  | .openerInRaw _ _ => false
  | .other _ => false

def LexError.OnlyOpen (e : LexError) : Prop := e.kind.onlyOpen = true

theorem LexError.other_definite (message : String) (span : Span) :
    ¬(LexError.mk (.other message) span).OnlyOpen := nofun

namespace Lex

/-- A program that reads alike under both policies. -/
abbrev Definite {α : Type} (x : Lex α) : Prop := Run.Definite LexError.OnlyOpen Lexer.unclosedString x

abbrev Tolerates {α : Type} (x y : Lex α) (l : Lexer) (Q : α → Lexer → Prop) : Prop :=
  Run.Tolerates LexError.OnlyOpen Lexer.unclosedString x y l Q

/-! ## Scanners that meet no open form -/

theorem definite_error {α : Type} (span : Span) (message : String) :
    Definite (error span message : Lex α) := definite_fail nofun

theorem definite_advance (n : ℕ) : Definite (advance n) := definite_modify fun _ => rfl

theorem definite_bumpSpanned : Definite bumpSpanned := definite_act fun _ => rfl

theorem definite_take (n : ℕ) : Definite (take n) := definite_act fun _ => rfl

theorem definite_eat (ch : Char) : Definite (eat ch) := by
  apply definite_act
  intro l
  split <;> rfl

theorem definite_bumpSimple (token : Token) : Definite (bumpSimple token) :=
  definite_bind (definite_advance 1) fun _ => definite_pure token

theorem definite_openDelim (kind : DelimKind) : Definite (openDelim kind) := by
  apply definite_bind definite_bumpSpanned
  intro opened
  exact definite_bind (definite_modify fun _ => rfl) fun _ => definite_pure _

theorem definite_closeDelim (kind : DelimKind) : Definite (closeDelim kind) := by
  apply definite_bind definite_bumpSpanned
  intro span
  apply definite_bind definite_get
  intro l
  split
  · exact definite_pure _
  · apply definite_ite
    · exact definite_bind (definite_modify fun _ => rfl) fun _ => definite_pure _
    · exact definite_fail nofun

theorem definite_separatorLoop (fuel : ℕ) (hard : Bool) : Definite (separatorLoop fuel hard) := by
  induction fuel generalizing hard with
  | zero => exact definite_stuck
  | succ fuel ih =>
    refine definite_bind (definite_modify fun _ => rfl) fun _ => ?_
    apply definite_bind definite_get
    intro l
    apply definite_ite
    · exact definite_bind (definite_advance 1) fun _ => ih true
    apply definite_ite
    · exact definite_bind (definite_advance 1) fun _ => ih hard
    · exact definite_pure hard

theorem definite_scanSeparator : Definite scanSeparator := by
  apply definite_bind definite_get
  intro l
  apply definite_bind (definite_advance 1)
  intro _
  exact definite_bind (definite_separatorLoop _ _) fun _ => definite_pure _

theorem definite_scanBareWord (rules : PathRules) : Definite (scanBareWord rules) := by
  apply definite_bind definite_get
  intro l
  apply definite_ite
  · exact definite_bumpSimple _
  · exact definite_bind (definite_take _) fun _ => definite_pure _

theorem definite_scanNumeralWord (len : ℕ) : Definite (scanNumeralWord len) := by
  apply definite_bind (definite_take _)
  intro numeral
  apply definite_bind definite_get
  intro l
  exact definite_bind (definite_take _) fun _ => definite_pure _

theorem definite_scanTag (span : Span) : Definite (scanTag span) := by
  apply definite_bind (definite_advance 1)
  intro _
  apply definite_bind definite_get
  intro l
  apply definite_bind (definite_take _)
  intro label
  apply definite_bind definite_get
  intro l'
  exact definite_ite (definite_error _ _) (definite_pure _)

theorem definite_takeHex (max : ℕ) : Definite (takeHex max) :=
  definite_bind definite_get fun _ => definite_take _

theorem definite_scanHexEscape (escape : Span) : Definite (scanHexEscape escape) := by
  apply definite_bind (definite_takeHex 2)
  intro digits
  apply definite_bind definite_get
  intro l
  apply definite_ite (definite_error _ _)
  exact definite_ite (definite_error _ _) (definite_pure _)

theorem definite_scanUnicodeEscape (escape : Span) : Definite (scanUnicodeEscape escape) := by
  apply definite_bind (definite_eat _)
  intro opened
  apply definite_bind definite_get
  intro l
  apply definite_ite (definite_error _ _)
  apply definite_bind (definite_takeHex 6)
  intro digits
  apply definite_bind (definite_ite (definite_pure _) (definite_eat _))
  intro closed
  apply definite_bind definite_get
  intro l'
  apply definite_ite (definite_error _ _)
  exact definite_ite (definite_pure _) (definite_error _ _)

theorem definite_redirect (span : Span) (token : Except String Token) :
    Definite (redirect span token) := by
  apply definite_bind definite_get
  intro l
  cases token with
  | ok token => exact definite_pure token
  | error why => exact definite_error _ why

theorem definite_scanRedirectGt (fd : Option (List Char)) (span : Span) :
    Definite (scanRedirectGt fd span) := by
  apply definite_bind (definite_advance 1)
  intro _
  apply definite_bind definite_get
  intro l
  apply definite_ite
  · exact definite_bind (definite_advance 1) fun _ => definite_redirect _ _
  apply definite_ite
  · exact definite_bind (definite_advance 1) fun _ => definite_redirect _ _
  apply definite_ite
  · apply definite_bind (definite_advance 1)
    intro _
    apply definite_bind definite_get
    intro l'
    apply definite_bind (definite_take _)
    intro target
    exact definite_ite (definite_redirect _ _) (definite_redirect _ _)
  · exact definite_redirect _ _

theorem definite_scanRedirectLt (fd : Option (List Char)) (span : Span) :
    Definite (scanRedirectLt fd span) := by
  apply definite_bind (definite_advance 1)
  intro _
  apply definite_bind definite_get
  intro l
  apply definite_ite
  · apply definite_bind (definite_advance 1)
    intro _
    apply definite_bind definite_get
    intro l'
    apply definite_ite
    · exact definite_bind (definite_advance 1) fun _ => definite_redirect _ _
    · exact definite_ite (definite_redirect _ _) (definite_redirect _ _)
  · exact definite_redirect _ _

theorem definite_scanFdRedirect (span : Span) : Definite (scanFdRedirect span) := by
  apply definite_bind definite_get
  intro l
  apply definite_bind (definite_take _)
  intro digits
  apply definite_bind definite_get
  intro l'
  exact definite_ite (definite_scanRedirectGt _ span) (definite_scanRedirectLt _ span)

theorem definite_scanDelimitedName : Definite scanDelimitedName := by
  apply definite_bind definite_get
  intro l
  apply definite_bind (definite_advance 1)
  intro _
  apply definite_bind definite_get
  intro l'
  apply definite_bind (definite_take _)
  intro name
  apply definite_bind definite_get
  intro l''
  apply definite_ite (definite_fail nofun)
  apply definite_ite (definite_error _ _)
  apply definite_ite
  · exact definite_bind (definite_advance 1) fun _ => definite_pure _
  · exact definite_ite (definite_error _ _) (definite_error _ _)

theorem definite_pushGroup (opener : Span) (kind : DelimKind) : Definite (pushGroup opener kind) := by
  apply definite_bind definite_get
  intro l
  exact definite_ite (definite_error _ _) (definite_modify fun _ => rfl)

/-! ## Strings and groups open at the end -/

theorem tolerates_eofOrUnterminated {l : Lexer} (h : l.rest = []) :
    Tolerates (eofOrUnterminated .requireClosed) (eofOrUnterminated .allowOpen) l
      fun _ l' => l'.rest = [] := by
  apply tolerates_get
  cases l.delims with
  | nil => exact tolerates_pure
  | cons delim delims => exact tolerates_fail rfl (sat_pure h)

theorem well_unclosedString {opened : Span} {form : StringForm} {l : Lexer} (h : l.rest = []) :
    Sat (unclosedString .allowOpen opened form) l (Well fun _ l' => l'.rest = []) :=
  sat_modify h

theorem tolerates_unclosedString {opened : Span} {form : StringForm} {l : Lexer}
    (h : l.rest = []) :
    Tolerates (unclosedString .requireClosed opened form) (unclosedString .allowOpen opened form) l
      fun _ l' => l'.rest = [] :=
  tolerates_fail rfl (well_unclosedString h)

theorem rawBody_unclosed {level : ℕ} {seen text body : List Char}
    (h : rawBody level seen text = .unclosed body) : body = seen.reverse ++ text := by
  induction text generalizing seen with
  | nil =>
    cases h
    simp
  | cons ch rest ih =>
    unfold rawBody at h
    split at h
    · split at h
      · cases h
      split at h
      · cases h
      · simpa using ih h
    · simpa using ih h

theorem tolerates_scanQuoted {span : Span} {level : ℕ} {l : Lexer} :
    Tolerates (scanQuoted .requireClosed span level) (scanQuoted .allowOpen span level) l
      fun _ l' => l'.rest = [] := by
  apply tolerates_modify rfl
  apply tolerates_get
  cases hbody : rawBody level [] (l.advance 1).rest with
  | closed body =>
    exact tolerates_definite (definite_bind (definite_advance _) fun _ => definite_pure _)
  | opener body => exact tolerates_definite (definite_fail nofun)
  | unclosed body =>
    have hall := rawBody_unclosed hbody
    simp only [List.reverse_nil, List.nil_append] at hall
    apply tolerates_modify rfl
    have hend : ((l.advance 1).advance body.length).rest = [] := by
      rw [Lexer.rest_advance, hall, List.drop_length]
    apply tolerates_bind (tolerates_unclosedString hend)
    · intro _ _ _
      exact tolerates_pure
    · intro _ l' hl
      exact sat_pure hl

/-- The string that an open escape leaves is open too. -/
theorem tolerates_scanDoubleQuotedEscape {escape opened : Span} {l : Lexer} :
    Tolerates (scanDoubleQuotedEscape .requireClosed escape opened)
      (scanDoubleQuotedEscape .allowOpen escape opened) l fun _ l' => l'.rest = [] := by
  apply tolerates_get
  cases hrest : l.rest with
  | nil =>
    apply tolerates_bind (tolerates_unclosedString hrest)
    · intro _ _ _
      exact tolerates_pure
    · intro _ l' hl
      exact sat_pure hl
  | cons ch rest =>
    apply tolerates_definite
    apply definite_bind (definite_advance 1)
    intro _
    apply definite_bind definite_get
    intro l'
    apply definite_ite (definite_pure _)
    apply definite_ite (definite_pure _)
    apply definite_ite (definite_pure _)
    apply definite_ite (definite_pure _)
    apply definite_ite (definite_pure _)
    apply definite_ite (definite_pure _)
    apply definite_ite (definite_pure _)
    apply definite_ite
    · exact definite_bind (definite_eat _) fun _ => definite_pure _
    apply definite_ite (definite_scanHexEscape escape)
    apply definite_ite (definite_scanUnicodeEscape escape)
    exact definite_ite (definite_error _ _) (definite_error _ _)

/-! ## Splices -/

def TolerantGroups (strict lenient : Group) : Prop :=
  ∀ opener kind l, Tolerates (strict opener kind) (lenient opener kind) l fun _ l' => l'.rest = []

section Nested
variable {strict lenient : Group}

theorem tolerates_scanDollar (hgroup : TolerantGroups strict lenient) {l : Lexer} :
    Tolerates (scanDollar strict) (scanDollar lenient) l
      fun token l' => token.isSome = true ∧ l'.rest = [] := by
  apply tolerates_get
  split
  · exact tolerates_definite (definite_bind (definite_take _) fun _ => definite_pure _)
  split
  · exact tolerates_definite (definite_error _ _)
  split
  · exact tolerates_definite (definite_bind definite_scanDelimitedName fun _ => definite_pure _)
  split
  · apply tolerates_act rfl
    apply tolerates_bind (hgroup _ _ _)
    · intro _ _ _
      exact tolerates_pure
    · intro _ l' hl
      exact sat_pure ⟨rfl, hl⟩
  · exact tolerates_pure

theorem tolerates_scanSpliceGroup (hgroup : TolerantGroups strict lenient) {kind : DelimKind}
    {l : Lexer} : Tolerates (scanSpliceGroup strict kind) (scanSpliceGroup lenient kind) l
      fun _ l' => l'.rest = [] := by
  apply tolerates_act rfl
  apply tolerates_bind (hgroup _ _ _)
  · intro _ _ _
    exact tolerates_pure
  · intro _ l' hl
    exact sat_pure hl

theorem well_keyGroups {fuel : ℕ} {tokens : List Lexeme} {l : Lexer} (h : l.rest = []) :
    Sat (keyGroups lenient fuel tokens) l (Well fun _ l' => l'.rest = []) := by
  cases fuel with
  | zero => exact sat_stuck
  | succ fuel =>
    apply well_get
    have hpeek : l.peek ≠ some '[' := by simp [Lexer.peek, h]
    rw [if_neg hpeek]
    exact sat_pure h

theorem tolerates_keyGroups (hgroup : TolerantGroups strict lenient) {fuel : ℕ}
    {tokens : List Lexeme} {l : Lexer} :
    Tolerates (keyGroups strict fuel tokens) (keyGroups lenient fuel tokens) l
      fun _ l' => l'.rest = [] := by
  induction fuel generalizing tokens l with
  | zero => exact tolerates_stuck
  | succ fuel ih =>
    apply tolerates_get
    split
    · apply tolerates_bind (tolerates_scanSpliceGroup hgroup)
      · intro _ _ _
        exact ih
      · intro _ l' hl
        exact well_keyGroups hl
    · exact tolerates_pure

theorem tolerates_spliceHead (hgroup : TolerantGroups strict lenient) {l : Lexer} :
    Tolerates (spliceHead strict) (spliceHead lenient) l fun _ l' => l'.rest = [] := by
  apply tolerates_get
  apply tolerates_modify rfl
  split
  · apply tolerates_get
    split
    · apply tolerates_bind (tolerates_scanSpliceGroup hgroup)
      · intro _ _ _
        exact tolerates_pure
      · intro _ l' hl
        exact sat_pure hl
    split
    · apply tolerates_modify rfl
      apply tolerates_bind (tolerates_scanDollar hgroup)
      · intro _ _ _
        exact tolerates_definite (definite_bind definite_get fun _ => definite_pure _)
      · intro _ l' hl
        exact well_get (sat_pure hl.2)
    · exact tolerates_pure
  · apply tolerates_bind (tolerates_scanDollar hgroup)
    · intro _ _ _
      exact tolerates_definite (definite_bind definite_get fun _ => definite_pure _)
    · intro _ l' hl
      exact well_get (sat_pure hl.2)

theorem tolerates_scanSplice (hgroup : TolerantGroups strict lenient) {l : Lexer} :
    Tolerates (scanSplice strict) (scanSplice lenient) l fun _ l' => l'.rest = [] := by
  apply tolerates_bind (tolerates_spliceHead hgroup)
  · intro head l' _
    cases head with
    | none => exact tolerates_pure
    | some tokens =>
      dsimp only
      split
      · exact tolerates_pure
      · apply tolerates_get
        apply tolerates_bind (tolerates_keyGroups hgroup)
        · intro _ _ _
          exact tolerates_pure
        · intro _ _ hl
          exact sat_pure hl
  · intro head l' hl
    cases head with
    | none => exact sat_pure hl
    | some tokens =>
      dsimp only
      split
      · exact sat_pure hl
      · apply well_get
        apply well_bind
        apply Well.mono (well_keyGroups hl)
        intro _ _ hl'
        exact sat_pure hl'

/-! ## Double quotes -/

theorem onlyOpen_rewrap (opened : Span) (e : LexError) :
    (rewrapInnerIntoString opened e).OnlyOpen ↔ e.OnlyOpen := by
  unfold rewrapInnerIntoString
  split
  · rfl
  · rfl

theorem well_doubleQuotedLoop {opened : Span} {fuel : ℕ} {parts : List (Span × StringPart)}
    {run : LiteralRun} {l : Lexer} (h : l.rest = []) :
    Sat (doubleQuotedLoop .allowOpen lenient opened fuel parts run) l
      (Well fun _ l' => l'.rest = []) := by
  cases fuel with
  | zero => exact sat_stuck
  | succ fuel =>
    apply well_get
    rw [h]
    apply well_bind
    apply Well.mono (well_unclosedString h)
    intro _ _ hl
    exact sat_pure hl

theorem tolerates_doubleQuotedLoop (hgroup : TolerantGroups strict lenient) {opened : Span}
    {fuel : ℕ} {parts : List (Span × StringPart)} {run : LiteralRun} {l : Lexer} :
    Tolerates (doubleQuotedLoop .requireClosed strict opened fuel parts run)
      (doubleQuotedLoop .allowOpen lenient opened fuel parts run) l fun _ l' => l'.rest = [] := by
  induction fuel generalizing parts run l with
  | zero => exact tolerates_stuck
  | succ fuel ih =>
    apply tolerates_get
    cases hrest : l.rest with
    | nil =>
      apply tolerates_bind (tolerates_unclosedString hrest)
      · intro _ _ _
        exact tolerates_pure
      · intro _ _ hl
        exact sat_pure hl
    | cons ch rest =>
      dsimp only
      split
      · exact tolerates_modify rfl tolerates_pure
      split
      · apply tolerates_act rfl
        apply tolerates_bind tolerates_scanDoubleQuotedEscape
        · intro _ _ _
          exact ih
        · intro _ _ hl
          exact well_doubleQuotedLoop hl
      split
      · apply tolerates_bind (tolerates_mapError (onlyOpen_rewrap opened) (tolerates_scanSplice hgroup))
        · intro splice _ _
          apply tolerates_get
          cases splice with
          | none => exact ih
          | some tokens => exact ih
        · intro splice _ hl
          apply well_get
          cases splice with
          | none => exact well_doubleQuotedLoop hl
          | some tokens => exact well_doubleQuotedLoop hl
      split
      · exact tolerates_act rfl ih
      · exact tolerates_modify rfl ih

theorem tolerates_scanDoubleQuoted (hgroup : TolerantGroups strict lenient) {span : Span}
    {l : Lexer} : Tolerates (scanDoubleQuoted .requireClosed strict span)
      (scanDoubleQuoted .allowOpen lenient span) l fun _ l' => l'.rest = [] := by
  apply tolerates_modify rfl
  apply tolerates_get
  apply tolerates_bind (tolerates_doubleQuotedLoop hgroup)
  · intro _ _ _
    exact tolerates_pure
  · intro _ _ hl
    exact sat_pure hl

/-! ## The next token -/

variable {rules : PathRules}

theorem tolerates_scanToken (hgroup : TolerantGroups strict lenient) {span : Span} {l : Lexer} :
    Tolerates (scanToken .requireClosed strict rules span) (scanToken .allowOpen lenient rules span) l
      fun _ l' => l'.rest = [] := by
  have hbegins := arm_begins l.inExpr l.suppressNewline l.rest
  apply tolerates_get
  cases harm : arm l.inExpr l.suppressNewline l.rest with
  | eof =>
    rw [harm] at hbegins
    exact tolerates_eofOrUnterminated hbegins
  | op op width => exact tolerates_modify rfl tolerates_pure
  | hashQuoted => exact tolerates_modify rfl tolerates_scanQuoted
  | separator => exact tolerates_definite definite_scanSeparator
  | opener kind => exact tolerates_definite (definite_openDelim kind)
  | closer kind => exact tolerates_definite (definite_closeDelim kind)
  | simple token => exact tolerates_definite (definite_bumpSimple token)
  | ampersand =>
    apply tolerates_modify rfl
    apply tolerates_definite
    apply definite_bind (definite_eat _)
    intro doubled
    exact definite_bind definite_get fun _ => definite_error _ _
  | dollar =>
    apply tolerates_modify rfl
    apply tolerates_bind (tolerates_scanDollar hgroup)
    · intro token _ _
      apply tolerates_get
      cases token with
      | none => exact tolerates_definite (definite_error _ _)
      | some token => exact tolerates_pure
    · intro token _ hl
      apply well_get
      obtain ⟨hsome, hl⟩ := hl
      cases token with
      | none => cases hsome
      | some token => exact sat_pure hl
  | quoted => exact tolerates_scanQuoted
  | doubleQuoted => exact tolerates_scanDoubleQuoted hgroup
  | redirectGt => exact tolerates_definite (definite_scanRedirectGt _ span)
  | redirectLt => exact tolerates_definite (definite_scanRedirectLt _ span)
  | fdRedirect => exact tolerates_definite (definite_scanFdRedirect span)
  | spread => exact tolerates_modify rfl tolerates_pure
  | tag => exact tolerates_definite (definite_scanTag span)
  | numeral len => exact tolerates_definite (definite_scanNumeralWord len)
  | bare => exact tolerates_definite (definite_scanBareWord rules)
  | control ch => exact tolerates_definite (definite_bind definite_bumpSpanned fun _ => definite_error _ _)

theorem tolerates_nextToken (hgroup : TolerantGroups strict lenient) {l : Lexer} :
    Tolerates (nextToken .requireClosed strict rules) (nextToken .allowOpen lenient rules) l
      fun _ l' => l'.rest = [] := by
  apply tolerates_modify rfl
  apply tolerates_get
  apply tolerates_bind (tolerates_scanToken hgroup)
  · intro _ _ _
    exact tolerates_get tolerates_pure
  · intro _ _ hl
    exact well_get (sat_pure hl)

theorem well_nextToken {l : Lexer} (h : l.rest = []) :
    Sat (nextToken .allowOpen lenient rules) l
      (Well fun lexeme l' => lexeme.token.isEof = true ∧ l'.rest = []) := by
  have hend : l.skipInlineWhitespace.rest = [] := by
    rw [Lexer.skipInlineWhitespace, Lexer.rest_advance, h, List.drop_nil]
  apply well_modify
  apply well_get
  apply well_bind
  apply well_get
  rw [hend]
  have hended : Sat (pure (Lexeme.mk .eof (l.skipInlineWhitespace.finish l.skipInlineWhitespace.span)) :
      Lex Lexeme) l.skipInlineWhitespace
      (Well fun lexeme l' => lexeme.token.isEof = true ∧ l'.rest = []) := sat_pure ⟨rfl, hend⟩
  exact well_get (sat_pure (well_get hended))

/-! ## Groups -/

theorem well_groupLoop {depth fuel : ℕ} {tokens : List Lexeme} {l : Lexer} (h : l.rest = []) :
    Sat (groupLoop (nextToken .allowOpen lenient rules) depth fuel tokens) l
      (Well fun _ l' => l'.rest = []) := by
  cases fuel with
  | zero => exact sat_stuck
  | succ fuel =>
    apply well_bind
    apply Well.mono (well_nextToken h)
    intro lexeme l' hl
    apply well_get
    split
    · exact sat_pure hl.2
    · rw [if_pos hl.1]
      exact well_modify (sat_pure hl.2)

theorem tolerates_groupLoop (hgroup : TolerantGroups strict lenient) {depth fuel : ℕ}
    {tokens : List Lexeme} {l : Lexer} :
    Tolerates (groupLoop (nextToken .requireClosed strict rules) depth fuel tokens)
      (groupLoop (nextToken .allowOpen lenient rules) depth fuel tokens) l
      fun _ l' => l'.rest = [] := by
  induction fuel generalizing tokens l with
  | zero => exact tolerates_stuck
  | succ fuel ih =>
    apply tolerates_bind (tolerates_nextToken hgroup)
    · intro _ _ _
      apply tolerates_get
      split
      · exact tolerates_pure
      split
      · exact tolerates_modify rfl tolerates_pure
      · exact ih
    · intro _ _ hl
      apply well_get
      split
      · exact sat_pure hl
      split
      · exact well_modify (sat_pure hl)
      · exact well_groupLoop hl

end Nested

theorem tolerantGroups_scanTokenGroup (rules : PathRules) (nesting : ℕ) :
    TolerantGroups (scanTokenGroup .requireClosed rules nesting)
      (scanTokenGroup .allowOpen rules nesting) := by
  induction nesting with
  | zero =>
    intro opener kind l
    exact tolerates_definite (definite_bind (definite_pushGroup opener kind) fun _ => definite_stuck)
  | succ nesting ih =>
    intro opener kind l
    apply tolerates_bind (tolerates_definite (definite_pushGroup opener kind))
    · intro _ _ _
      exact tolerates_get (tolerates_groupLoop ih)
    · intro _ _ hfalse
      exact absurd hfalse id

end Lex

/-! ## The whole source -/

def tokensRead (next : Lex Lexeme) : ℕ → Lexer → List Lexeme
  | 0, _ => []
  | fuel + 1, l =>
    match next l with
    | some (.ok lexeme, l') =>
      lexeme :: (if lexeme.token.isEof then [] else tokensRead next fuel l')
    | _ => []

def strictlyRead (rules : PathRules) (source : String) : List Lexeme :=
  tokensRead (Lex.nextToken .requireClosed
    (Lex.scanTokenGroup .requireClosed rules Lex.nestingDepthLimit) rules)
    (source.toList.length + 1) (Lexer.new source.toList)

/-- Lex an editor buffer, its strings and groups possibly open at the end. The outer `none` were it
not to end, the inner one where it is refused. -/
def lexOpen (rules : PathRules) (source : String) : Option (Option OpenLexemes) :=
  (tokenize rules .allowOpen source).map Except.toOption

section Loop
variable {strict lenient : Lex.Group} {rules : PathRules}

theorem tokenizeLoop_extends {next : Lex Lexeme} {fuel : ℕ} {tokens : List Lexeme} {l : Lexer} :
    Sat (tokenizeLoop next fuel tokens) l fun r _ => ∀ out, r = .ok out → tokens <+: out := by
  induction fuel generalizing tokens l with
  | zero => exact sat_stuck
  | succ fuel ih =>
    apply sat_bind_all
    · intro lexeme l'
      split
      · apply sat_pure
        intro out hout
        cases hout
        exact List.prefix_append _ _
      · refine Sat.mono ih ?_
        intro r _ hr out hout
        exact (List.prefix_append _ _).trans (hr out hout)
    · intro e _ out hout
      cases hout

theorem tokensRead_kept (hgroup : Lex.TolerantGroups strict lenient) {fuel : ℕ}
    {tokens out : List Lexeme} {l l' : Lexer}
    (hrun : tokenizeLoop (Lex.nextToken .allowOpen lenient rules) fuel tokens l = some (.ok out, l')) :
    tokens ++ tokensRead (Lex.nextToken .requireClosed strict rules) fuel l <+: out := by
  induction fuel generalizing tokens l with
  | zero => cases hrun
  | succ fuel ih =>
    have hextends := tokenizeLoop_extends _ _ hrun out rfl
    have hagree : Lex.Tolerates (Lex.nextToken .requireClosed strict rules)
        (Lex.nextToken .allowOpen lenient rules) l _ := Lex.tolerates_nextToken hgroup
    unfold tokensRead
    split
    · next lexeme m hnext =>
      have hopen := hagree.same _ _ hnext trivial
      have hrest : (if lexeme.token.isEof then pure (tokens ++ [lexeme])
          else tokenizeLoop (Lex.nextToken .allowOpen lenient rules) fuel (tokens ++ [lexeme]) :
            Lex (List Lexeme)) m = some (.ok out, l') := (bind_ok hopen).symm.trans hrun
      split at hrest
      · next heof =>
        cases hrest
        rw [if_pos heof]
      · next heof =>
        rw [if_neg heof]
        simpa using ih hrest
    · simpa using hextends

theorem well_tokenizeLoop {fuel : ℕ} {tokens : List Lexeme} {l : Lexer} (h : l.rest = []) :
    Sat (tokenizeLoop (Lex.nextToken .allowOpen lenient rules) fuel tokens) l
      (Well fun _ l' => l'.rest = []) := by
  cases fuel with
  | zero => exact sat_stuck
  | succ fuel =>
    apply well_bind
    apply Well.mono (Lex.well_nextToken h)
    intro lexeme l' hl
    rw [if_pos hl.1]
    exact sat_pure hl.2

theorem tolerates_tokenizeLoop (hgroup : Lex.TolerantGroups strict lenient) {fuel : ℕ}
    {tokens : List Lexeme} {l : Lexer} :
    Lex.Tolerates (tokenizeLoop (Lex.nextToken .requireClosed strict rules) fuel tokens)
      (tokenizeLoop (Lex.nextToken .allowOpen lenient rules) fuel tokens) l
      fun _ l' => l'.rest = [] := by
  induction fuel generalizing tokens l with
  | zero => exact tolerates_stuck
  | succ fuel ih =>
    apply tolerates_bind (Lex.tolerates_nextToken hgroup)
    · intro _ _ _
      split
      · exact tolerates_pure
      · exact ih
    · intro _ _ hl
      split
      · exact sat_pure hl
      · exact well_tokenizeLoop hl

end Loop

theorem tokenize_loop (rules : PathRules) (source : String) :
    (∃ e : LexError, ¬e.OnlyOpen ∧ ∀ eof, tokenize rules eof source = some (.error e)) ∨
      ∀ eof, tokenize rules eof source =
        (tokenizeLoop (Lex.nextToken eof (Lex.scanTokenGroup eof rules Lex.nestingDepthLimit) rules)
          (source.toList.length + 1) [] (Lexer.new source.toList)).map fun r =>
            r.1.map fun tokens => ⟨tokens, r.2.unclosedString⟩ := by
  unfold tokenize
  dsimp only
  by_cases hsize : 2 ^ 32 ≤ Text.size source.toList
  · exact .inl ⟨_, LexError.other_definite _ _, fun _ => if_pos hsize⟩
  · cases findBidi 0 source.toList with
    | some found => exact .inl ⟨_, LexError.other_definite _ _, fun _ => if_neg hsize⟩
    | none => exact .inr fun _ => if_neg hsize

/-- What strict lexing accepts tolerant lexing reads alike, with no string open. Where strict
lexing fails for nothing but open forms, tolerant lexing goes on from the tokens read and covers the
source; where it fails for anything else, an unclosed `$(` too, tolerant lexing gives nothing. -/
theorem lexOpen_agrees (rules : PathRules) (source : String) :
    (∃ result, lex rules source = some result) ∧
      (∀ tokens, lex rules source = some (.ok tokens) →
        lexOpen rules source = some (some ⟨tokens, none⟩)) ∧
      ∀ e, lex rules source = some (.error e) →
        (e.OnlyOpen → ∃ lexed, lexOpen rules source = some (some lexed) ∧
          strictlyRead rules source <+: lexed.tokens ∧ Lossless source.toList lexed.tokens) ∧
        (¬e.OnlyOpen → lexOpen rules source = some none) := by
  obtain ⟨_, strict, hstrict, -⟩ := tokenize_total_and_lossless rules .requireClosed source
  obtain ⟨_, lenient, hlenient, hcovers⟩ := tokenize_total_and_lossless rules .allowOpen source
  have hlex : lex rules source = some (strict.map OpenLexemes.tokens) := by
    rw [lex, hstrict, Option.map_some]
  have hopen : lexOpen rules source = some lenient.toOption := by
    rw [lexOpen, hlenient, Option.map_some]
  refine ⟨⟨_, hlex⟩, ?_⟩
  rw [hlex, hopen]
  rcases tokenize_loop rules source with ⟨e, he, hrefused⟩ | hloop
  · rw [hrefused] at hstrict hlenient
    cases hstrict
    cases hlenient
    constructor
    · intro tokens htokens
      cases htokens
    · intro e' he'
      cases he'
      exact ⟨fun h => absurd h he, fun _ => rfl⟩
  rw [hloop] at hstrict hlenient
  obtain ⟨⟨r, l⟩, hrun, rfl⟩ := Option.map_eq_some_iff.mp hstrict
  obtain ⟨⟨r', l'⟩, hrun', rfl⟩ := Option.map_eq_some_iff.mp hlenient
  have hgroup := Lex.tolerantGroups_scanTokenGroup rules Lex.nestingDepthLimit
  have hagree := @tolerates_tokenizeLoop _ _ rules hgroup (source.toList.length + 1) []
    (Lexer.new source.toList)
  constructor
  · intro tokens htokens
    cases r with
    | error e => cases htokens
    | ok read =>
      cases htokens
      have hsame := hagree.same _ _ hrun trivial
      have hmark : l.unclosedString = none := hagree.marks _ _ hrun
      rw [hrun'] at hsame
      cases hsame
      show some (some (OpenLexemes.mk read l.unclosedString)) = _
      rw [hmark]
  · intro e he
    cases r with
    | ok read => cases he
    | error e' =>
      cases he
      constructor
      · intro honly
        have hwell := hagree.goesOn _ _ hrun honly _ _ hrun'
        cases r' with
        | error e' => exact absurd hwell id
        | ok out =>
          have hkept := tokensRead_kept hgroup hrun'
          exact ⟨_, rfl, hkept, hcovers _ rfl⟩
      · intro hdefinite
        have hsame := hagree.same _ _ hrun hdefinite
        rw [hrun'] at hsame
        cases hsame
        rfl

end Ral.Syntax
