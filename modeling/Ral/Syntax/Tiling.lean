import Mathlib.Data.List.Chain
import Ral.Syntax.Lexer

/-! # Tilings

How tokens lie on the text they were read from. Between two of them stand blanks and comments,
and what nests in a token lies on the token's own text.
-/

namespace Ral.Syntax
open Text (size Boundary size_append)

/-! ## Between tokens -/

/-- What the lexer skips: blanks, newlines where they are blank, and comments, each up to the end
of its line. -/
inductive Skipped (suppress : Bool) : List Char → Prop
  | nil : Skipped suppress []
  | blank {ch : Char} {gap : List Char} : ch = ' ' ∨ ch = '\t' ∨ ch = '\r' →
      Skipped suppress gap → Skipped suppress (ch :: gap)
  | newline {gap : List Char} : suppress = true → Skipped suppress gap →
      Skipped suppress ('\n' :: gap)
  | comment {line gap : List Char} : '\n' ∉ line → hashOpensQuoted ('#' :: line) = false →
      (∀ ch ∈ gap.head?, ch = '\n') → Skipped suppress gap → Skipped suppress ('#' :: line ++ gap)

/-- A line continuation of a double-quoted string. A backslash may also end an unclosed one. -/
def Continuation (text : List Char) : Prop :=
  text = ['\\', '\n'] ∨ text = ['\\', '\r', '\n'] ∨ text = ['\\', '\r'] ∨ text = ['\\']

def suppresses (delims : List DelimKind) : Bool :=
  delims.head? = some .bracket || delims.head? = some .expr

/-! ## Spellings -/

def Word.text : Word → List Char
  | .plain text => text.toList
  | .path text => text.toList
  | .tilde home => '~' :: (home.suffix.getD "").toList

def Operator.spelling : Operator → List Char
  | .binary (.arith .add) => ['+']
  | .binary (.arith .sub) => ['-']
  | .binary (.arith .mul) => ['*']
  | .binary (.arith .div) => ['/']
  | .binary (.arith .mod) => ['%']
  | .binary (.compare .lt) => ['<']
  | .binary (.compare .gt) => ['>']
  | .binary (.compare .le) => ['<', '=']
  | .binary (.compare .ge) => ['>', '=']
  | .binary (.eq .eq) => ['=', '=']
  | .binary (.eq .ne) => ['!', '=']
  | .and => ['&', '&']
  | .or => ['|', '|']
  | .assign => ['=']

namespace Token

def spelling : Token → Option (List Char)
  | .word w => some w.text
  | .caret => some ['^']
  | .pipe => some ['|']
  | .question => some ['?']
  | .colon => some [':']
  | .lBrace => some ['{']
  | .rBrace => some ['}']
  | .lBracket => some ['[']
  | .rBracket => some [']']
  | .lParen => some ['(']
  | .rParen => some [')']
  | .comma => some [',']
  | .spread => some ['.', '.', '.']
  | .tag label => some ('`' :: label.toList)
  | .variable name false => some ('$' :: name.toList)
  | .variable name true => some ('$' :: '(' :: name.toList ++ [')'])
  | .bang => some ['!']
  | .op o => some o.spelling
  | .eof => some []
  | _ => none

/-- No stream nests in the token. -/
def isLeaf : Token → Bool
  | .expr _ => false
  | .doubleQuoted _ => false
  | _ => true

/-- The open delimiters after the token. A closer at depth zero closes nothing. -/
def shift (token : Token) (delims : List DelimKind) : Option (List DelimKind) :=
  match token, delims with
  | .lBrace, delims => some (.brace :: delims)
  | .lBracket, delims => some (.bracket :: delims)
  | .rBrace, kind :: delims => if kind.close = '}' then some delims else none
  | .rBracket, kind :: delims => if kind.close = ']' then some delims else none
  | _, delims => some delims

theorem eq_eof {token : Token} (h : token.isEof = true) : token = .eof := by
  unfold isEof at h
  split at h
  · rfl
  · cases h

end Token

/-! ## Streams -/

mutual

/-- `tokens` lie on `text`, which begins at offset `pos`; they turn the open delimiters from
`delims` into the last argument. -/
inductive Stream : List DelimKind → ℕ → List Char → List Lexeme → List DelimKind → Prop
  | nil {delims : List DelimKind} {pos : ℕ} : Stream delims pos [] [] delims
  | snoc {delims mid delims' : List DelimKind} {pos : ℕ} {text gap body : List Char}
      {tokens : List Lexeme} {token : Token} :
      Stream delims pos text tokens mid → Skipped (suppresses mid) gap →
      ReadAt mid (pos + size (text ++ gap)) body token → token.shift mid = some delims' →
      Stream delims pos (text ++ gap ++ body)
        (tokens ++ [.mk token ⟨pos + size (text ++ gap), pos + size (text ++ gap ++ body)⟩]) delims'

/-- `token` is read from `text` at offset `pos`, within the delimiters. -/
inductive ReadAt : List DelimKind → ℕ → List Char → Token → Prop
  | leaf {delims : List DelimKind} {pos : ℕ} {text : List Char} {token : Token} :
      token.isLeaf = true → (text = [] → token.isEof = true) →
      (∀ spelling ∈ token.spelling, text = spelling) → ReadAt delims pos text token
  | expr {delims delims' : List DelimKind} {pos : ℕ} {inner gap close : List Char}
      {body : List Lexeme} :
      delims.length < Lex.nestingDepthLimit → Stream (.expr :: delims) (pos + 2) inner body delims' →
      Skipped (suppresses delims') gap → close = [']'] ∧ delims' = .expr :: delims ∨ close = [] →
      ReadAt delims pos ('$' :: '[' :: inner ++ gap ++ close) (.expr body)
  | doubleQuoted {delims : List DelimKind} {pos : ℕ} {inner close : List Char}
      {parts : List (Span × StringPart)} :
      Parts delims (pos + 1) inner parts → close = ['"'] ∨ close = [] →
      ReadAt delims pos ('"' :: inner ++ close) (.doubleQuoted parts)

/-- The parts of a string whose inner text begins at `pos`. -/
inductive Parts : List DelimKind → ℕ → List Char → List (Span × StringPart) → Prop
  | nil {delims : List DelimKind} {pos : ℕ} : Parts delims pos [] []
  | continuation {delims : List DelimKind} {pos : ℕ} {text line : List Char}
      {parts : List (Span × StringPart)} :
      Parts delims pos text parts → Continuation line → Parts delims pos (text ++ line) parts
  | literal {delims : List DelimKind} {pos : ℕ} {text run : List Char}
      {parts : List (Span × StringPart)} {value : String} :
      Parts delims pos text parts → run ≠ [] →
      Parts delims pos (text ++ run)
        (parts ++ [(⟨pos + size text, pos + size (text ++ run)⟩, .literal value)])
  | splice {delims delims' : List DelimKind} {pos : ℕ} {text inner gap : List Char}
      {parts : List (Span × StringPart)} {tokens : List Lexeme} :
      Parts delims pos text parts → Stream delims (pos + size text) inner tokens delims' →
      inner ≠ [] → Skipped (suppresses delims') gap →
      Parts delims pos (text ++ inner ++ gap)
        (parts ++ [(⟨pos + size text, pos + size (text ++ inner ++ gap)⟩, .splice tokens)])

end

theorem ReadAt.nonempty {delims : List DelimKind} {pos : ℕ} {text : List Char} {token : Token}
    (h : ReadAt delims pos text token) (he : text = []) : token.isEof = true := by
  cases h with
  | leaf _ heof _ => exact heof he
  | expr => cases he
  | doubleQuoted => cases he

theorem ReadAt.spelled {delims : List DelimKind} {pos : ℕ} {text spelling : List Char} {token : Token}
    (h : ReadAt delims pos text token) (hspelling : token.spelling = some spelling) :
    text = spelling := by
  cases h with
  | leaf _ _ hspelled => exact hspelled _ hspelling
  | expr => cases hspelling
  | doubleQuoted => cases hspelling

@[elab_as_elim]
theorem Stream.induct {delims : List DelimKind} {pos : ℕ}
    {motive : (text : List Char) → (tokens : List Lexeme) → (delims' : List DelimKind) →
      Stream delims pos text tokens delims' → Prop}
    (nil : motive [] [] delims .nil)
    (snoc : ∀ {mid delims' : List DelimKind} {text gap body : List Char} {tokens : List Lexeme}
      {token : Token} (h : Stream delims pos text tokens mid)
      (hskip : Skipped (suppresses mid) gap)
      (hread : ReadAt mid (pos + size (text ++ gap)) body token)
      (hshift : token.shift mid = some delims'), motive text tokens mid h →
      motive (text ++ gap ++ body)
        (tokens ++ [.mk token ⟨pos + size (text ++ gap), pos + size (text ++ gap ++ body)⟩]) delims'
        (.snoc h hskip hread hshift))
    {text : List Char} {tokens : List Lexeme} {delims' : List DelimKind}
    (h : Stream delims pos text tokens delims') : motive text tokens delims' h :=
  match h with
  | .nil => nil
  | .snoc h hskip hread hshift => snoc h hskip hread hshift (Stream.induct nil snoc h)

/-! ## Where tokens lie -/

def Between (source : List Char) (a b : Lexeme) : Prop :=
  ∃ front gap back suppress, source = front ++ gap ++ back ∧ size front = a.span.stop ∧
    size (front ++ gap) = b.span.start ∧ Skipped suppress gap

/-- A token covers some of the source, from boundary to boundary; only the end covers nothing. -/
structure Lies (source : List Char) (lexeme : Lexeme) : Prop where
  start : Boundary source lexeme.span.start
  stop : Boundary source lexeme.span.stop
  covers : lexeme.span.start < lexeme.span.stop ∨
    lexeme.span.start = lexeme.span.stop ∧ lexeme.token.isEof = true

structure Tiled (source : List Char) (tokens : List Lexeme) : Prop where
  ordered : tokens.Pairwise fun a b => a.span.stop ≤ b.span.start
  lies : ∀ lexeme ∈ tokens, Lies source lexeme
  gaps : tokens.IsChain (Between source)

def StreamOf (source : List Char) (tokens : List Lexeme) : Prop :=
  ∃ front text back delims delims', source = front ++ text ++ back ∧
    Stream delims (size front) text tokens delims'

namespace Stream
variable {delims delims' : List DelimKind} {pos : ℕ} {text : List Char} {tokens : List Lexeme}

theorem stop_le (h : Stream delims pos text tokens delims') :
    ∀ lexeme ∈ tokens, lexeme.span.stop ≤ pos + size text := by
  induction h using Stream.induct with
  | nil =>
    intro lexeme hmem
    cases hmem
  | snoc h hskip hread hshift ih =>
    intro lexeme hmem
    simp only [size_append] at ih ⊢
    rcases List.mem_append.mp hmem with hmem | hmem
    · have hle := ih lexeme hmem
      omega
    · rw [List.mem_singleton.mp hmem]
      simp only [Lexeme.span, size_append]
      exact le_refl _

theorem stop_last (h : Stream delims pos text tokens delims') :
    ∀ lexeme ∈ tokens.getLast?, lexeme.span.stop = pos + size text := by
  cases h with
  | nil =>
    intro lexeme hmem
    cases hmem
  | snoc =>
    intro lexeme hmem
    rw [List.getLast?_append_of_ne_nil _ (by simp), List.getLast?_singleton] at hmem
    cases hmem
    rfl

theorem tiled {front back : List Char} (h : Stream delims (size front) text tokens delims') :
    Tiled (front ++ text ++ back) tokens := by
  generalize hpos : size front = pos at h
  induction h using Stream.induct generalizing back with
  | nil => exact ⟨.nil, by simp, .nil⟩
  | @snoc mid delims' text gap body tokens token h hskip hread hshift ih =>
    subst hpos
    have htiled : Tiled (front ++ text ++ (gap ++ body ++ back)) tokens := ih
    have hsource : front ++ (text ++ gap ++ body) ++ back = front ++ text ++ (gap ++ body ++ back) := by
      simp only [List.append_assoc]
    rw [hsource]
    constructor
    · apply List.pairwise_append.mpr
      refine ⟨htiled.ordered, List.pairwise_singleton _ _, ?_⟩
      intro a ha b hb
      rw [List.mem_singleton.mp hb]
      have hle := h.stop_le a ha
      simp only [Lexeme.span, size_append] at hle ⊢
      omega
    · intro lexeme hmem
      rcases List.mem_append.mp hmem with hmem | hmem
      · exact htiled.lies lexeme hmem
      rw [List.mem_singleton.mp hmem]
      constructor
      · refine ⟨front ++ text ++ gap, ⟨body ++ back, by simp⟩, ?_⟩
        simp only [size_append, Lexeme.span]
        omega
      · refine ⟨front ++ text ++ gap ++ body, ⟨back, by simp⟩, ?_⟩
        simp only [size_append, Lexeme.span]
        omega
      · simp only [Lexeme.span, Lexeme.token, size_append]
        by_cases hbody : body = []
        · right
          subst hbody
          exact ⟨rfl, hread.nonempty rfl⟩
        · left
          have hlen := Text.length_le_size body
          have hpos := List.length_pos_of_ne_nil hbody
          omega
    · apply List.isChain_append.mpr
      refine ⟨htiled.gaps, List.isChain_singleton _, ?_⟩
      intro a ha b hb
      cases hb
      refine ⟨front ++ text, gap, body ++ back, suppresses mid, by simp, ?_, ?_, hskip⟩
      · rw [h.stop_last a ha, size_append]
      · simp only [size_append, Lexeme.span]
        omega

end Stream

/-! ## Nested streams -/

/-- A stream is the outer one or nests in a token of it, however deep. -/
inductive Within : List Lexeme → List Lexeme → Prop
  | refl (tokens : List Lexeme) : Within tokens tokens
  | expr {outer tokens body : List Lexeme} {span : Span} : Within tokens outer →
      .mk (.expr body) span ∈ tokens → Within body outer
  | splice {outer tokens inner : List Lexeme} {parts : List (Span × StringPart)}
      {span at' : Span} : Within tokens outer → .mk (.doubleQuoted parts) span ∈ tokens →
      (at', .splice inner) ∈ parts → Within inner outer

theorem StreamOf.tiled {source : List Char} {tokens : List Lexeme} (h : StreamOf source tokens) :
    Tiled source tokens := by
  obtain ⟨front, text, back, delims, delims', rfl, h⟩ := h
  exact h.tiled

theorem StreamOf.readAt {source : List Char} {tokens : List Lexeme} (h : StreamOf source tokens)
    {lexeme : Lexeme} (hmem : lexeme ∈ tokens) : ∃ front body back delims,
      source = front ++ body ++ back ∧ ReadAt delims (size front) body lexeme.token := by
  obtain ⟨front, text, back, delims, delims', rfl, h⟩ := h
  generalize hpos : size front = pos at h
  induction h using Stream.induct generalizing back with
  | nil => cases hmem
  | @snoc mid delims' text gap body tokens token h hskip hread hshift ih =>
    subst hpos
    rcases List.mem_append.mp hmem with hmem | hmem
    · obtain ⟨front', body', back', delims, hsource, hread⟩ := ih hmem (gap ++ body ++ back)
      exact ⟨front', body', back', delims, by rw [← hsource]; simp, hread⟩
    · rw [List.mem_singleton.mp hmem]
      exact ⟨front ++ text ++ gap, body, back, mid, by simp, by
        simpa [Lexeme.token] using hread⟩

theorem Parts.streamOf {delims : List DelimKind} {front text back : List Char} {pos : ℕ}
    {parts : List (Span × StringPart)} {at' : Span} {inner : List Lexeme}
    (h : Parts delims pos text parts) (hpos : size front = pos)
    (hmem : (at', .splice inner) ∈ parts) : StreamOf (front ++ text ++ back) inner :=
  match h with
  | .nil => by cases hmem
  | @Parts.continuation _ _ text line _ h _ => by
    have hinner : StreamOf (front ++ text ++ (line ++ back)) inner := h.streamOf hpos hmem
    simpa using hinner
  | @Parts.literal _ _ text run _ _ h _ => by
    rcases List.mem_append.mp hmem with hmem | hmem
    · have hinner : StreamOf (front ++ text ++ (run ++ back)) inner := h.streamOf hpos hmem
      simpa using hinner
    · cases List.mem_singleton.mp hmem
  | @Parts.splice _ _ _ text inner' gap _ tokens h hstream _ _ => by
    rcases List.mem_append.mp hmem with hmem | hmem
    · have hinner : StreamOf (front ++ text ++ (inner' ++ gap ++ back)) inner := h.streamOf hpos hmem
      simpa using hinner
    · cases List.mem_singleton.mp hmem
      exact ⟨front ++ text, inner', gap ++ back, _, _, by simp, by rw [size_append, hpos]; exact hstream⟩

theorem StreamOf.within {source : List Char} {tokens outer : List Lexeme}
    (h : StreamOf source outer) (hwithin : Within tokens outer) : StreamOf source tokens := by
  induction hwithin with
  | refl => exact h
  | expr _ hmem ih =>
    obtain ⟨front, text, back, delims, hsource, hread⟩ := (ih h).readAt hmem
    cases hread with
    | leaf hleaf => cases hleaf
    | @expr _ delims' _ inner gap close _ _ hstream =>
      exact ⟨front ++ ['$', '['], inner, gap ++ close ++ back, _, _, by simp [hsource], by
        rw [size_append]
        exact hstream⟩
  | splice _ hmem hpart ih =>
    obtain ⟨front, text, back, delims, hsource, hread⟩ := (ih h).readAt hmem
    cases hread with
    | leaf hleaf => cases hleaf
    | @doubleQuoted _ _ inner close _ hparts =>
      have hinner : StreamOf (front ++ ['"'] ++ inner ++ (close ++ back)) _ :=
        hparts.streamOf (size_append front _) hpart
      simpa [hsource] using hinner

end Ral.Syntax
