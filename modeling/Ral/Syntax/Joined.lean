import Ral.Syntax.Reread

/-! # Lists of quoted words

The words of a list, separated by spaces or, inside brackets, by commas, are read back one by one.
-/

namespace Ral.Syntax
open Text (size size_append)

def joined (separator : Char) : List (List Char) → List Char
  | [] => []
  | [image] => image
  | image :: next :: images => image ++ separator :: joined separator (next :: images)

/-- The lexemes of strings from an offset on: each lies on the string's image and stands for the
string, one character separates it from the next, and `between` is what is read of that. -/
inductive Images (rules : PathRules) (between : ℕ → List Lexeme) :
    ℕ → List String → List Lexeme → ℕ → Prop
  | nil {start : ℕ} : Images rules between start [] [] start
  | one {start stop : ℕ} {s : String} {token : Token} :
      token.denotes = some s → stop = start + size (quoteWord rules s).toList →
      Images rules between start [s] [.mk token ⟨start, stop⟩] stop
  | cons {start stop last : ℕ} {s next : String} {strings : List String} {token : Token}
      {lexemes : List Lexeme} :
      token.denotes = some s → stop = start + size (quoteWord rules s).toList →
      Images rules between (stop + 1) (next :: strings) lexemes last →
      Images rules between start (s :: next :: strings)
        (.mk token ⟨start, stop⟩ :: (between stop ++ lexemes)) last

/-! ## Runs of the loop -/

/-- The lexemes are the next ones, and none ends the source. -/
inductive Lexes (next : Lex Lexeme) : Lexer → List Lexeme → Lexer → Prop
  | nil {l : Lexer} : Lexes next l [] l
  | cons {l m l' : Lexer} {lexeme : Lexeme} {lexemes : List Lexeme} :
      next l = some (.ok lexeme, m) → lexeme.token.isEof = false → Lexes next m lexemes l' →
      Lexes next l (lexeme :: lexemes) l'

theorem Lexes.append {next : Lex Lexeme} {l m l' : Lexer} {lexemes more : List Lexeme}
    (h : Lexes next l lexemes m) (h' : Lexes next m more l') : Lexes next l (lexemes ++ more) l' := by
  induction h with
  | nil => exact h'
  | cons hnext hproper _ ih => exact .cons hnext hproper (ih h')

theorem Lexes.tokenizeLoop {next : Lex Lexeme} {l m m' : Lexer} {lexemes tokens : List Lexeme}
    {last : Lexeme} {fuel : ℕ} (h : Lexes next l lexemes m) (hlast : next m = some (.ok last, m'))
    (heof : last.token.isEof = true) (hfuel : lexemes.length < fuel) :
    tokenizeLoop next fuel tokens l = some (.ok (tokens ++ lexemes ++ [last]), m') := by
  induction h generalizing tokens fuel with
  | nil =>
    obtain ⟨fuel, rfl⟩ := Nat.exists_eq_add_of_le' hfuel
    show Syntax.tokenizeLoop next (fuel + 1) tokens _ = _
    rw [Syntax.tokenizeLoop, Run.bind_ok hlast, if_pos heof, Run.pure_run, List.append_nil]
  | cons hnext hproper _ ih =>
    obtain ⟨fuel, rfl⟩ := Nat.exists_eq_add_of_le' (Nat.zero_lt_of_lt hfuel)
    show Syntax.tokenizeLoop next (fuel + 1) tokens _ = _
    rw [Syntax.tokenizeLoop, Run.bind_ok hnext, if_neg (by simp [hproper]),
      ih hlast (Nat.lt_of_succ_lt_succ hfuel)]
    simp

theorem Lexes.length_le {eof : EofPolicy} {rules : PathRules} {l m : Lexer} {lexemes : List Lexeme}
    (h : Lexes (Lex.nextToken eof (Lex.scanTokenGroup eof rules Lex.nestingDepthLimit) rules) l
      lexemes m) : lexemes.length + m.rest.length ≤ l.rest.length := by
  induction h with
  | nil => simp
  | @cons l m l' lexeme lexemes hnext hproper _ ih =>
    have hyields : Run.Yields (Lex.nextToken eof (Lex.scanTokenGroup eof rules Lex.nestingDepthLimit)
        rules) l (Lex.LexemeRead l) :=
      Lex.yields_nextToken (Lex.groupsRead_scanTokenGroup Lex.nestingDepthLimit) (by omega)
    rcases hyields with ⟨e, s, herror⟩ | ⟨lexeme', m', hok, hread⟩
    · rw [hnext] at herror
      cases herror
    · rw [hnext] at hok
      cases hok
      rcases hread.consumes with heof | hless
      · rw [hproper] at heof
        cases heof
      · simp only [List.length_cons]
        omega

/-! ## Between spaces and between commas -/

theorem not_isEof_of_denotes {token : Token} {s : String} (h : token.denotes = some s) :
    token.isEof = false := by
  cases token with
  | eof => cases h
  | _ => rfl

theorem pos_advance {l : Lexer} {text rest : List Char} (h : l.rest = text ++ rest) :
    (l.advance text.length).pos = l.pos + size text := by
  have hreads := Lexer.Reads.advance l text.length
  rw [h, List.take_left' rfl] at hreads
  exact hreads.pos_eq

section
variable {eof : EofPolicy} {group : Lex.Group} {rules : PathRules} {suppress : Bool} {separator : Char}
  {between : ℕ → List Lexeme} {gap last : List Char}

def Separates (eof : EofPolicy) (group : Lex.Group) (rules : PathRules) (suppress : Bool)
    (separator : Char) (between : ℕ → List Lexeme) (gap : List Char) : Prop :=
  ∀ l rest, l.inExpr = false → l.suppressNewline = suppress → l.rest = separator :: rest →
    ∃ n, Lexes (Lex.nextToken eof group rules) l (between l.pos) (l.advance n) ∧
      n + gap.length = 1 ∧ (l.advance n).rest = gap ++ rest ∧ (l.advance n).pos = l.pos + n

theorem lexes_joined (hseparates : Separates eof group rules suppress separator between gap)
    (hgap : gap = [] ∨ gap = [' ']) (hfollow : ∀ rest, Follows suppress (separator :: rest))
    (hlast : Follows suppress last) {strings : List String}
    {l : Lexer} {before : List Char} (hbefore : before = [] ∨ before = [' ']) (hne : strings ≠ [])
    (hexpr : l.inExpr = false) (hsuppress : l.suppressNewline = suppress)
    (hrest : l.rest =
      before ++ joined separator (strings.map fun s => (quoteWord rules s).toList) ++ last) :
    ∃ lexemes stop n, Lexes (Lex.nextToken eof group rules) l lexemes (l.advance n) ∧
      Images rules between (l.pos + before.length) strings lexemes stop ∧
      (l.advance n).rest = last ∧ (l.advance n).pos = stop := by
  induction strings generalizing l before with
  | nil => exact absurd rfl hne
  | cons s strings ih =>
    have himage := image_quoteWord rules s
    have hbeforeSize : size before = before.length := by
      rcases hbefore with rfl | rfl
      all_goals rfl
    -- What the first word leaves, whatever follows it.
    have hfirst : ∀ follow, Follows suppress follow →
        l.rest = before ++ (quoteWord rules s).toList ++ follow →
        ∃ token, Lex.nextToken eof group rules l = some (.ok (.mk token
            ⟨l.pos + before.length, l.pos + before.length + size (quoteWord rules s).toList⟩),
            l.advance (before ++ (quoteWord rules s).toList).length) ∧
          token.denotes = some s ∧
          (l.advance (before ++ (quoteWord rules s).toList).length).rest = follow ∧
          (l.advance (before ++ (quoteWord rules s).toList).length).pos =
            l.pos + before.length + size (quoteWord rules s).toList := by
      intro follow hword hsplit
      rw [← hsuppress] at hword
      obtain ⟨token, hnext, hdenotes⟩ := himage.nextToken hbefore hexpr hword hsplit
      rw [String.ofList_toList] at hdenotes
      rw [← List.length_append] at hnext
      refine ⟨token, hnext, hdenotes, ?_, ?_⟩
      · rw [Lexer.rest_advance, hsplit, List.drop_left' rfl]
      · rw [pos_advance hsplit, size_append, hbeforeSize, Nat.add_assoc]
    cases strings with
    | nil =>
      obtain ⟨token, hnext, hdenotes, hafter, hpos⟩ := hfirst last hlast hrest
      exact ⟨_, _, _, .cons hnext (not_isEof_of_denotes hdenotes) .nil, .one hdenotes rfl, hafter, hpos⟩
    | cons next strings =>
      have hsplit : l.rest = before ++ (quoteWord rules s).toList ++
          separator :: (joined separator ((next :: strings).map fun s => (quoteWord rules s).toList) ++
            last) := by
        rw [hrest]
        simp [joined]
      obtain ⟨token, hnext, hdenotes, hafter, hpos⟩ := hfirst _ (hfollow _) hsplit
      obtain ⟨n, hbetween, hn, hgapped, hgapPos⟩ := hseparates
        (l.advance (before ++ (quoteWord rules s).toList).length) _ hexpr hsuppress hafter
      have hexpr' : ((l.advance (before ++ (quoteWord rules s).toList).length).advance n).inExpr =
          false := hexpr
      obtain ⟨lexemes, stop, k, hlexes, himages, hend, hstop⟩ :=
        ih hgap (by simp) hexpr' hsuppress (hgapped.trans (List.append_assoc _ _ _).symm)
      have hadvance : l.advance ((before ++ (quoteWord rules s).toList).length + n + k) =
          ((l.advance (before ++ (quoteWord rules s).toList).length).advance n).advance k := by
        rw [Lexer.advance_advance, Lexer.advance_advance, Nat.add_assoc]
      have hlexed := Lexes.cons hnext (not_isEof_of_denotes hdenotes) (hbetween.append hlexes)
      have hstart : (l.advance (before ++ (quoteWord rules s).toList).length |>.advance n).pos +
          gap.length = l.pos + before.length + size (quoteWord rules s).toList + 1 := by
        rw [hgapPos, hpos]
        omega
      rw [hstart] at himages
      rw [hpos, ← hadvance] at hlexed
      rw [← hadvance] at hend hstop
      exact ⟨_, stop, _, hlexed, .cons hdenotes rfl himages, hend, hstop⟩

theorem separates_spaces : Separates eof group rules suppress ' ' (fun _ => []) [' '] :=
  fun _ _ _ _ h => ⟨0, .nil, rfl, h, rfl⟩

theorem separates_commas : Separates eof group rules true ',' (fun at' => [.mk .comma ⟨at', at' + 1⟩]) [] := by
  intro l rest hexpr hsuppress h
  have hreads := Lexer.Reads.advance_one h
  have hskip : l.skipInlineWhitespace = l := by
    unfold Lexer.skipInlineWhitespace
    rw [h]
    rfl
  have hnext : Lex.nextToken eof group rules l = some (.ok (.mk .comma ⟨l.pos, l.pos + 1⟩), l.advance 1) := by
    unfold Lex.nextToken
    rw [Run.modify_bind, Run.get_bind, hskip]
    have hscan : Lex.scanToken eof group rules l.span l = some (.ok .comma, l.advance 1) := by
      unfold Lex.scanToken
      rw [Run.get_bind, hexpr, hsuppress, h]
      rfl
    rw [Run.bind_ok hscan, Run.get_bind, Run.pure_run, Lexer.finish, hreads.pos_eq]
    rfl
  refine ⟨1, .cons hnext rfl .nil, rfl, ?_, ?_⟩
  · rw [Lexer.rest_advance, h]
    rfl
  · rw [hreads.pos_eq]
    rfl

end

/-! ## No refused character -/

theorem not_bidi_of_lt {ch : Char} (h : ch.toNat < 0x202A) : isBidiControl ch = false := by
  unfold isBidiControl bidiControlName
  rw [if_neg (by omega), if_neg (by omega), if_neg (by omega), if_neg (by omega), if_neg (by omega),
    if_neg (by omega), if_neg (by omega), if_neg (by omega), if_neg (by omega)]
  rfl

theorem not_bidi_of_hex {ch : Char} (h : isHexDigit ch = true) : isBidiControl ch = false := by
  apply not_bidi_of_lt
  have hle : ch ≤ 'f' := by
    simp only [isHexDigit, Char.isDigit, Bool.or_eq_true, Bool.and_eq_true, decide_eq_true_eq] at h
    rcases h with (h | h) | h
    · exact Char.le_trans h.2 (show '9' ≤ 'f' by decide)
    · exact h.2
    · exact Char.le_trans h.2 (show 'F' ≤ 'f' by decide)
  have hnat : ch.toNat ≤ 102 := hle
  omega

theorem any_bidi_escapeChar (c : Char) : (escapeChar c).any isBidiControl = false := by
  unfold escapeChar
  split
  · next hmem =>
    simp only [List.mem_cons, List.not_mem_nil, or_false] at hmem
    rcases hmem with rfl | rfl | rfl | rfl
    all_goals rfl
  split
  · rfl
  split
  · rfl
  split
  · rfl
  split
  · next hbidi =>
    have hhex : (upperHex 0 c.toNat).any isBidiControl = false := by
      apply List.any_eq_false.mpr
      intro d hd
      simp [not_bidi_of_hex (List.all_eq_true.mp (Lex.upperHex_bidi hbidi).1 d hd)]
    simp only [List.cons_append, List.any_cons, List.any_append, hhex]
    rfl
  · next hbidi => simpa using hbidi

theorem any_bidi_escape (s : List Char) : (escapeForInterpolation s).any isBidiControl = false := by
  induction s with
  | nil => rfl
  | cons c s ih =>
    have hsplit : escapeForInterpolation (c :: s) = escapeChar c ++ escapeForInterpolation s := rfl
    rw [hsplit, List.any_append, any_bidi_escapeChar, ih]
    rfl

theorem Image.any_bidi {rules : PathRules} {s image : List Char} (h : Image rules s image) :
    image.any isBidiControl = false := by
  cases h with
  | bare hshape => exact hshape.visible
  | raw level hvisible _ =>
    have hhashes : (List.replicate level '#').any isBidiControl = false := by
      apply List.any_eq_false.mpr
      intro c hc
      rw [List.eq_of_mem_replicate hc]
      decide
    have hquote : isBidiControl '\'' = false := rfl
    simp only [List.any_append, List.any_cons, hhashes, hvisible, hquote, Bool.or_self]
  | escaped =>
    have hhome : (if s.head? = some '~' then ['\\'] else []).any isBidiControl = false := by
      split
      · rfl
      · rfl
    have hquote : isBidiControl '"' = false := rfl
    simp only [List.any_append, List.any_cons, hhome, any_bidi_escape, hquote, List.any_nil, Bool.or_self]

theorem any_bidi_joined {rules : PathRules} {separator : Char} (hseparator : isBidiControl separator = false)
    (strings : List String) :
    (joined separator (strings.map fun s => (quoteWord rules s).toList)).any isBidiControl = false := by
  induction strings with
  | nil => rfl
  | cons s strings ih =>
    have himage := (image_quoteWord rules s).any_bidi
    cases strings with
    | nil => exact himage
    | cons next strings =>
      have hsplit : joined separator ((s :: next :: strings).map fun s => (quoteWord rules s).toList) =
          (quoteWord rules s).toList ++ separator ::
            joined separator ((next :: strings).map fun s => (quoteWord rules s).toList) := rfl
      rw [hsplit, List.any_append, List.any_cons, himage, hseparator, ih]
      rfl

/-! ## Whole sources -/

def spaced (rules : PathRules) (strings : List String) : String :=
  String.ofList (joined ' ' (strings.map fun s => (quoteWord rules s).toList))

def bracketed (rules : PathRules) (strings : List String) : String :=
  String.ofList ('[' :: joined ',' (strings.map fun s => (quoteWord rules s).toList) ++ [']'])

theorem lex_of_lexes {rules : PathRules} {source : String} {lexemes : List Lexeme} {last : Lexeme}
    {m m' : Lexer} (hsize : size source.toList < 2 ^ 32)
    (hvisible : source.toList.any isBidiControl = false)
    (h : Lexes (Lex.nextToken .requireClosed
      (Lex.scanTokenGroup .requireClosed rules Lex.nestingDepthLimit) rules)
      (Lexer.new source.toList) lexemes m)
    (hlast : Lex.nextToken .requireClosed
      (Lex.scanTokenGroup .requireClosed rules Lex.nestingDepthLimit) rules m = some (.ok last, m'))
    (heof : last.token.isEof = true) : lex rules source = some (.ok (lexemes ++ [last])) := by
  have hfuel : lexemes.length < source.toList.length + 1 := by
    have hle := h.length_le
    have hrest : (Lexer.new source.toList).rest = source.toList := rfl
    rw [hrest] at hle
    omega
  unfold lex tokenize
  dsimp only
  rw [if_neg (by omega), findBidi_eq_none hvisible]
  dsimp only
  rw [h.tokenizeLoop hlast heof hfuel]
  rfl

theorem nextToken_end {group : Lex.Group} {rules : PathRules} {l : Lexer} (hrest : l.rest = [])
    (hdelims : l.delims = []) :
    Lex.nextToken .requireClosed group rules l = some (.ok (.mk .eof (.point l.pos)), l) := by
  have hskip : l.skipInlineWhitespace = l := by
    unfold Lexer.skipInlineWhitespace
    rw [hrest]
    rfl
  have hscan : Lex.scanToken .requireClosed group rules l.span l = some (.ok .eof, l) := by
    unfold Lex.scanToken
    rw [Run.get_bind, hrest]
    show Lex.eofOrUnterminated .requireClosed l = _
    unfold Lex.eofOrUnterminated
    rw [Run.get_bind, hdelims]
    rfl
  unfold Lex.nextToken
  rw [Run.modify_bind, Run.get_bind, hskip, Run.bind_ok hscan]
  rfl

theorem follows_space (rest : List Char) : Follows false (' ' :: rest) := by
  intro ch hch
  cases hch
  exact .inl rfl

theorem follows_comma (rest : List Char) : Follows true (',' :: rest) := by
  intro ch hch
  cases hch
  exact .inr (.inr ⟨rfl, rfl⟩)

theorem lex_spaced (rules : PathRules) (strings : List String)
    (hsize : size (spaced rules strings).toList < 2 ^ 32) :
    ∃ lexemes stop, lex rules (spaced rules strings) = some (.ok (lexemes ++ [.mk .eof (.point stop)])) ∧
      Images rules (fun _ => []) 0 strings lexemes stop := by
  have htext : (spaced rules strings).toList =
      joined ' ' (strings.map fun s => (quoteWord rules s).toList) := String.toList_ofList
  have hvisible : (spaced rules strings).toList.any isBidiControl = false := by
    rw [htext]
    exact any_bidi_joined rfl strings
  by_cases hne : strings = []
  · subst hne
    exact ⟨[], 0, lex_of_lexes hsize hvisible .nil (nextToken_end rfl rfl) rfl, .nil⟩
  have hrest : (Lexer.new (spaced rules strings).toList).rest =
      [] ++ joined ' ' (strings.map fun s => (quoteWord rules s).toList) ++ [] := by
    rw [List.append_nil]
    exact htext
  obtain ⟨lexemes, stop, n, hlexes, himages, hend, hstop⟩ := lexes_joined separates_spaces (.inr rfl)
    follows_space (fun ch hch => by cases hch) (.inl rfl) hne rfl rfl hrest
  rw [← hstop] at himages
  exact ⟨lexemes, _, lex_of_lexes hsize hvisible hlexes (nextToken_end hend rfl) rfl, himages⟩

theorem nextToken_open {group : Lex.Group} {rules : PathRules} {l : Lexer} {rest : List Char}
    (hrest : l.rest = '[' :: rest) (hexpr : l.inExpr = false) :
    Lex.nextToken .requireClosed group rules l = some (.ok (.mk .lBracket ⟨l.pos, l.pos + 1⟩),
      { l.advance 1 with delims := ⟨.bracket, ⟨l.pos, l.pos + 1⟩⟩ :: l.delims }) := by
  have hpos : (l.advance 1).pos = l.pos + 1 := (Lexer.Reads.advance_one hrest).pos_eq
  have hskip : l.skipInlineWhitespace = l := by
    unfold Lexer.skipInlineWhitespace
    rw [hrest]
    rfl
  have hscan : Lex.scanToken .requireClosed group rules l.span l = some (.ok .lBracket,
      { l.advance 1 with delims := ⟨.bracket, ⟨l.pos, l.pos + 1⟩⟩ :: l.delims }) := by
    unfold Lex.scanToken
    rw [Run.get_bind, hexpr, hrest]
    show Lex.openDelim .bracket l = _
    unfold Lex.openDelim
    rw [Lex.bumpSpanned_bind, Run.modify_bind, hpos]
    rfl
  unfold Lex.nextToken
  rw [Run.modify_bind, Run.get_bind, hskip, Run.bind_ok hscan, Run.get_bind, ← hpos]
  rfl

theorem nextToken_close {group : Lex.Group} {rules : PathRules} {l : Lexer} {rest : List Char}
    {opened : Span} {delims : List OpenDelim} (hrest : l.rest = ']' :: rest)
    (hdelims : l.delims = ⟨.bracket, opened⟩ :: delims) :
    Lex.nextToken .requireClosed group rules l = some (.ok (.mk .rBracket ⟨l.pos, l.pos + 1⟩),
      { l.advance 1 with delims := delims }) := by
  have hpos : (l.advance 1).pos = l.pos + 1 := (Lexer.Reads.advance_one hrest).pos_eq
  have hexpr : l.inExpr = false := by
    unfold Lexer.inExpr Lexer.innermost
    rw [hdelims]
    rfl
  have hskip : l.skipInlineWhitespace = l := by
    unfold Lexer.skipInlineWhitespace
    rw [hrest]
    rfl
  have hscan : Lex.scanToken .requireClosed group rules l.span l = some (.ok .rBracket,
      { l.advance 1 with delims := delims }) := by
    unfold Lex.scanToken
    rw [Run.get_bind, hexpr, hrest]
    show Lex.closeDelim .bracket l = _
    have hafter : (l.advance 1).delims = ⟨.bracket, opened⟩ :: delims := hdelims
    unfold Lex.closeDelim
    rw [Lex.bumpSpanned_bind, Run.get_bind, hafter]
    rfl
  unfold Lex.nextToken
  rw [Run.modify_bind, Run.get_bind, hskip, Run.bind_ok hscan, Run.get_bind, ← hpos]
  rfl

theorem lex_bracketed (rules : PathRules) (strings : List String)
    (hsize : size (bracketed rules strings).toList < 2 ^ 32) :
    ∃ lexemes stop, lex rules (bracketed rules strings) = some (.ok
        (.mk .lBracket ⟨0, 1⟩ :: lexemes ++
          [.mk .rBracket ⟨stop, stop + 1⟩, .mk .eof (.point (stop + 1))])) ∧
      Images rules (fun at' => [.mk .comma ⟨at', at' + 1⟩]) 1 strings lexemes stop := by
  have htext : (bracketed rules strings).toList =
      '[' :: (joined ',' (strings.map fun s => (quoteWord rules s).toList) ++ [']']) :=
    String.toList_ofList
  have hvisible : (bracketed rules strings).toList.any isBidiControl = false := by
    rw [htext, List.any_cons, List.any_append, any_bidi_joined rfl strings]
    rfl
  have hopen : Lex.nextToken .requireClosed
      (Lex.scanTokenGroup .requireClosed rules Lex.nestingDepthLimit) rules
      (Lexer.new (bracketed rules strings).toList) = _ := nextToken_open htext rfl
  -- The lexer inside the bracket.
  obtain ⟨l, hl⟩ : ∃ l, l = ({ (Lexer.new (bracketed rules strings).toList).advance 1 with
    delims := [⟨.bracket, ⟨0, 1⟩⟩] } : Lexer) := ⟨_, rfl⟩
  have hdelims : l.delims = [⟨.bracket, ⟨0, 1⟩⟩] := by rw [hl]
  have hexpr : l.inExpr = false := by rw [hl]; rfl
  have hsuppress : l.suppressNewline = true := by rw [hl]; rfl
  have hpos : l.pos = 1 := by
    have hnew : (Lexer.new (bracketed rules strings).toList).rest = '[' :: _ := htext
    rw [hl]
    exact (Lexer.Reads.advance_one hnew).pos_eq
  have hrest : l.rest =
      [] ++ joined ',' (strings.map fun s => (quoteWord rules s).toList) ++ [']'] := by
    rw [hl]
    show (Lexer.new (bracketed rules strings).toList).rest.drop 1 = _
    show (bracketed rules strings).toList.drop 1 = _
    rw [htext]
    rfl
  have hopen' : Lex.nextToken .requireClosed
      (Lex.scanTokenGroup .requireClosed rules Lex.nestingDepthLimit) rules
      (Lexer.new (bracketed rules strings).toList) = some (.ok (.mk .lBracket ⟨0, 1⟩), l) := by
    rw [hopen, hl]
    rfl
  have hwords : ∃ lexemes stop n, Lexes (Lex.nextToken .requireClosed
      (Lex.scanTokenGroup .requireClosed rules Lex.nestingDepthLimit) rules) l lexemes (l.advance n) ∧
      Images rules (fun at' => [.mk .comma ⟨at', at' + 1⟩]) 1 strings lexemes stop ∧
      (l.advance n).rest = [']'] ∧ (l.advance n).pos = stop := by
    by_cases hne : strings = []
    · subst hne
      exact ⟨[], 1, 0, .nil, .nil, hrest, hpos⟩
    · have hcommas : Separates .requireClosed
          (Lex.scanTokenGroup .requireClosed rules Lex.nestingDepthLimit) rules true ','
          (fun at' => [.mk .comma ⟨at', at' + 1⟩]) [] := separates_commas
      have hlexes := lexes_joined hcommas (.inl rfl) follows_comma
        (fun ch hch => by cases hch; exact .inr (.inl rfl)) (.inl rfl) hne hexpr hsuppress hrest
      rwa [hpos] at hlexes
  obtain ⟨lexemes, stop, n, hlexes, himages, hend, hstop⟩ := hwords
  have hclose : Lex.nextToken .requireClosed
      (Lex.scanTokenGroup .requireClosed rules Lex.nestingDepthLimit) rules (l.advance n) = _ :=
    nextToken_close hend hdelims
  have hfinal : (((l.advance n).advance 1).pos) = stop + 1 := by
    rw [(Lexer.Reads.advance_one hend).pos_eq, hstop]
    rfl
  rw [hstop] at hclose
  have hall := Lexes.cons hopen' rfl (hlexes.append (.cons hclose rfl .nil))
  have hempty : ({ (l.advance n).advance 1 with delims := [] } : Lexer).rest = [] := by
    show (l.advance n).rest.drop 1 = []
    rw [hend]
    rfl
  have hlast : Lex.nextToken .requireClosed
      (Lex.scanTokenGroup .requireClosed rules Lex.nestingDepthLimit) rules
      { (l.advance n).advance 1 with delims := [] } = _ := nextToken_end hempty rfl
  have hlex := lex_of_lexes hsize hvisible hall hlast rfl
  refine ⟨lexemes, stop, ?_, himages⟩
  rw [hlex]
  have hpos' : ({ (l.advance n).advance 1 with delims := [] } : Lexer).pos = stop + 1 := hfinal
  rw [hpos']
  simp

/-- Words quoted one by one and put side by side are read back as the strings they were made of, in
any source short enough to be read. -/
theorem quoteWord_faithful (rules : PathRules) (strings : List String) :
    (size (spaced rules strings).toList < 2 ^ 32 → ∃ lexemes stop,
      lex rules (spaced rules strings) = some (.ok (lexemes ++ [.mk .eof (.point stop)])) ∧
        Images rules (fun _ => []) 0 strings lexemes stop) ∧
    (size (bracketed rules strings).toList < 2 ^ 32 → ∃ lexemes stop,
      lex rules (bracketed rules strings) = some (.ok
          (.mk .lBracket ⟨0, 1⟩ :: lexemes ++
            [.mk .rBracket ⟨stop, stop + 1⟩, .mk .eof (.point (stop + 1))])) ∧
        Images rules (fun at' => [.mk .comma ⟨at', at' + 1⟩]) 1 strings lexemes stop) :=
  ⟨lex_spaced rules strings, lex_bracketed rules strings⟩

theorem quoteWord_faithful_two : (∃ lexemes stop,
      lex .posix (spaced .posix ["a b", "it's"]) = some (.ok (lexemes ++ [.mk .eof (.point stop)])) ∧
        Images .posix (fun _ => []) 0 ["a b", "it's"] lexemes stop) ∧
    ∃ lexemes stop, lex .posix (bracketed .posix ["a b", "it's"]) = some (.ok
        (.mk .lBracket ⟨0, 1⟩ :: lexemes ++
          [.mk .rBracket ⟨stop, stop + 1⟩, .mk .eof (.point (stop + 1))])) ∧
      Images .posix (fun at' => [.mk .comma ⟨at', at' + 1⟩]) 1 ["a b", "it's"] lexemes stop :=
  ⟨(quoteWord_faithful .posix ["a b", "it's"]).1 (by decide +kernel),
    (quoteWord_faithful .posix ["a b", "it's"]).2 (by decide +kernel)⟩

theorem Image.length_le {rules : PathRules} {s image : List Char} (h : Image rules s image) :
    s.length ≤ image.length := by
  cases h with
  | bare => exact Nat.le_refl _
  | raw level _ _ =>
    simp only [List.length_append, List.length_cons]
    omega
  | escaped =>
    have hlen := Lex.escapeForInterpolation_length_le s
    simp only [List.length_append, List.length_cons]
    omega

theorem lex_too_large {rules : PathRules} {source : String} (h : 2 ^ 32 ≤ size source.toList) :
    ∃ e, lex rules source = some (.error e) := by
  unfold lex tokenize
  dsimp only
  rw [if_pos h]
  exact ⟨_, rfl⟩

theorem spaced_too_large {rules : PathRules} {s : String} (h : 2 ^ 32 ≤ s.toList.length) :
    ∃ e, lex rules (spaced rules [s]) = some (.error e) := by
  apply lex_too_large
  have himage := (image_quoteWord rules s).length_le
  have hsize := Text.length_le_size (quoteWord rules s).toList
  unfold spaced
  rw [String.toList_ofList]
  show 2 ^ 32 ≤ size (quoteWord rules s).toList
  omega

/-- A word of 4 GiB is not read back. -/
theorem quoteWord_too_large : ¬∀ (rules : PathRules) (strings : List String), ∃ lexemes stop,
    lex rules (spaced rules strings) = some (.ok (lexemes ++ [.mk .eof (.point stop)])) ∧
      Images rules (fun _ => []) 0 strings lexemes stop := by
  intro h
  have hlength : (String.ofList (List.replicate (2 ^ 32) 'a')).toList.length = 2 ^ 32 := by
    rw [String.toList_ofList, List.length_replicate]
  generalize String.ofList (List.replicate (2 ^ 32) 'a') = s at hlength
  obtain ⟨lexemes, stop, hlex, _⟩ := h .posix [s]
  obtain ⟨e, herror⟩ := (spaced_too_large (le_of_eq hlength.symm) : ∃ e, lex .posix (spaced .posix [s]) = _)
  rw [herror] at hlex
  cases hlex

end Ral.Syntax
