import Ral.Syntax.Quote

/-! # Reading quoted words back -/

namespace Ral.Syntax
open Text (size size_append)

theorem Lexer.advance_advance (l : Lexer) (m n : ℕ) : (l.advance m).advance n = l.advance (m + n) := by
  simp [Lexer.advance, Text.Cursor.advance, List.take_add]

/-! ## Raw strings -/

theorem hashes_eq_iff {level : ℕ} {text : List Char} :
    Lex.hashes level text = level ↔ List.replicate level '#' <+: text := by
  unfold Lex.hashes hashRun
  constructor
  · intro h
    have htake : (text.take level).takeWhile (· = '#') = text.take level := by
      apply (List.takeWhile_prefix _).eq_of_length
      have hle := List.length_take_le level text
      have hle' := (List.takeWhile_prefix (l := text.take level) (· = '#')).length_le
      omega
    have hall : text.take level = List.replicate level '#' := by
      apply List.eq_replicate_iff.mpr
      constructor
      · rw [htake] at h
        exact h
      · intro c hc
        rw [← htake] at hc
        simpa using List.all_eq_true.mp List.all_takeWhile _ hc
    rw [← hall]
    exact List.take_prefix level text
  · intro h
    obtain ⟨rest, rfl⟩ := h
    have htake : (List.replicate level '#' ++ rest).take level = List.replicate level '#' := by simp
    rw [htake, List.takeWhile_replicate]
    simp

theorem rawBody_closed {body : List Char} {level : ℕ} (h : fenceAdmits body level = true)
    (follow rest seen : List Char) (hbody : seen.reverse ++ rest = body) :
    Lex.rawBody level seen (rest ++ '\'' :: (List.replicate level '#' ++ follow)) = .closed body := by
  obtain ⟨hopener, hcloser⟩ := fenceAdmits_iff.mp h
  induction rest generalizing seen with
  | nil =>
    rw [List.nil_append, Lex.rawBody, if_pos rfl,
      if_pos (hashes_eq_iff.mpr (List.prefix_append _ _)), ← hbody, List.append_nil]
  | cons ch rest ih =>
    have hnext := ih (ch :: seen) (by simpa using hbody)
    rw [List.cons_append, Lex.rawBody]
    by_cases hquote : ch = '\''
    · have hclose : Lex.hashes level (rest ++ '\'' :: (List.replicate level '#' ++ follow)) ≠ level := by
        intro hrun
        have hprefix := hashes_eq_iff.mp hrun
        rcases Nat.lt_or_ge rest.length level with hlt | hle
        · have hshort : rest ++ ['\''] <+: List.replicate level '#' := by
            apply List.prefix_of_prefix_length_le _ hprefix
            · simp only [List.length_append, List.length_singleton, List.length_replicate]
              omega
            · exact ⟨List.replicate level '#' ++ follow, by simp⟩
          have hmem := hshort.subset (List.mem_append_right rest (List.mem_singleton_self '\''))
          exact absurd (List.eq_of_mem_replicate hmem) (by decide)
        · have hlong : List.replicate level '#' <+: rest := by
            apply List.prefix_of_prefix_length_le hprefix (List.prefix_append _ _)
            rwa [List.length_replicate]
          obtain ⟨tail, htail⟩ := hlong
          apply hcloser
          exact ⟨seen.reverse, tail, by simp [← hbody, ← htail, hquote]⟩
      have hopen : Lex.hashes level seen ≠ level := by
        intro hrun
        obtain ⟨tail, htail⟩ := hashes_eq_iff.mp hrun
        apply hopener
        refine ⟨tail.reverse, rest, ?_⟩
        rw [← hbody, ← htail, hquote]
        simp
      rw [if_pos hquote, if_neg hclose, if_neg hopen]
      exact hnext
    · rw [if_neg hquote]
      exact hnext

namespace Lex
open Run

theorem advance_bind {α : Type} (n : ℕ) (f : Unit → Lex α) (l : Lexer) :
    (advance n >>= f) l = f () (l.advance n) := rfl

theorem take_bind {α : Type} (n : ℕ) (f : List Char → Lex α) (l : Lexer) :
    (take n >>= f) l = f (l.rest.take n) (l.advance n) := rfl

theorem take_run (n : ℕ) (l : Lexer) : take n l = some (.ok (l.rest.take n), l.advance n) := rfl

theorem eat_run {ch : Char} {l : Lexer} {rest : List Char} (h : l.rest = ch :: rest) :
    eat ch l = some (.ok true, l.advance 1) := by
  simp [eat, act, Lexer.peek, h]

theorem bumpSpanned_bind {α : Type} (f : Span → Lex α) (l : Lexer) :
    (bumpSpanned >>= f) l = f ⟨l.pos, (l.advance 1).pos⟩ (l.advance 1) := rfl

theorem scanQuoted_closed {eof : EofPolicy} {span : Span} {level : ℕ} {l : Lexer}
    {body follow : List Char} (hadmits : fenceAdmits body level = true)
    (h : l.rest = '\'' :: (body ++ '\'' :: (List.replicate level '#' ++ follow))) :
    scanQuoted eof span level l =
      some (.ok (.singleQuoted (String.ofList body)), l.advance (body.length + level + 2)) := by
  have hrest : (l.advance 1).rest = body ++ '\'' :: (List.replicate level '#' ++ follow) := by
    rw [Lexer.rest_advance, h]
    rfl
  unfold scanQuoted
  rw [advance_bind, get_bind]
  dsimp only
  rw [hrest, rawBody_closed hadmits follow body [] rfl]
  dsimp only
  rw [advance_bind, pure_run, Lexer.advance_advance]
  congr 3
  omega

theorem hashOpensQuoted_fence (level : ℕ) (rest : List Char) :
    hashRun (List.replicate level '#' ++ '\'' :: rest) = level ∧
      hashOpensQuoted (List.replicate level '#' ++ '\'' :: rest) = true := by
  have hrun : hashRun (List.replicate level '#' ++ '\'' :: rest) = level := by
    simp [hashRun, List.takeWhile_append_of_pos]
  exact ⟨hrun, by simp [hashOpensQuoted, hrun]⟩

/-- A raw string in its fence is read as its body. -/
theorem scanToken_raw {eof : EofPolicy} {group : Group} {rules : PathRules} {span : Span} {level : ℕ}
    {l : Lexer} {body follow : List Char} (hadmits : fenceAdmits body level = true)
    (hexpr : l.inExpr = false)
    (h : l.rest = List.replicate level '#' ++ '\'' :: (body ++ '\'' :: (List.replicate level '#' ++ follow))) :
    scanToken eof group rules span l =
      some (.ok (.singleQuoted (String.ofList body)), l.advance (body.length + 2 * level + 2)) := by
  unfold scanToken
  rw [get_bind, hexpr]
  obtain ⟨hrun, hopens⟩ := hashOpensQuoted_fence level (body ++ '\'' :: (List.replicate level '#' ++ follow))
  rw [← h] at hrun hopens
  cases level with
  | zero =>
    rw [List.replicate_zero, List.nil_append] at h
    have harm : arm false l.suppressNewline l.rest = .quoted := by
      rw [h]
      rfl
    rw [harm]
    exact scanQuoted_closed hadmits h
  | succ level =>
    have harm : arm false l.suppressNewline l.rest = .hashQuoted := by
      rw [h, List.replicate_succ, List.cons_append] at hopens ⊢
      unfold arm
      dsimp only
      exact if_pos ⟨rfl, hopens⟩
    rw [harm]
    dsimp only
    rw [advance_bind, hrun]
    have hrest : (l.advance (level + 1)).rest =
        '\'' :: (body ++ '\'' :: (List.replicate (level + 1) '#' ++ follow)) := by
      rw [Lexer.rest_advance, h, List.drop_left' List.length_replicate]
    rw [scanQuoted_closed hadmits hrest, Lexer.advance_advance]
    congr 3
    omega

/-! ## Bare words -/

def NotWord (r : Except LexError Token) (_ : Lexer) : Prop := ∀ w, r ≠ .ok (.word w)

theorem notWord_bind {α : Type} {x : Lex α} {f : α → Lex Token} {l : Lexer}
    (h : ∀ a t, Sat (f a) t NotWord) : Sat (x >>= f) l NotWord :=
  sat_bind_all h fun _ _ _ h => by cases h

theorem notWord_fail {e : LexError} {l : Lexer} : Sat (fail e) l NotWord :=
  sat_fail fun _ h => by cases h

theorem notWord_pure {token : Token} {l : Lexer} (h : ∀ w, token ≠ .word w) :
    Sat (pure token) l NotWord := sat_pure fun w he => h w (Except.ok.inj he)

theorem notWord_scanQuoted {eof : EofPolicy} {span : Span} {level : ℕ} {l : Lexer} :
    Sat (scanQuoted eof span level) l NotWord := by
  apply notWord_bind
  intro _ m
  apply notWord_bind
  intro _ m
  dsimp only
  split
  · exact notWord_bind fun _ _ => notWord_pure fun _ h => by cases h
  · exact notWord_fail
  · exact notWord_bind fun _ _ => notWord_bind fun _ _ => notWord_pure fun _ h => by cases h

theorem notWord_redirect {span : Span} {token : Except String Token} {l : Lexer}
    (h : ∀ t, token = .ok t → (∃ op, t = .redirect op) ∨ t = .stderrToStdout) :
    Sat (redirect span token) l NotWord := by
  apply notWord_bind
  intro _ m
  split
  · next t =>
    apply notWord_pure
    intro w hw
    rcases h t rfl with ⟨op, hop⟩ | hdup
    · rw [hop] at hw
      cases hw
    · rw [hdup] at hw
      cases hw
  · exact notWord_fail

theorem notWord_scanRedirectGt {fd : Option (List Char)} {span : Span} {l : Lexer} :
    Sat (scanRedirectGt fd span) l NotWord := by
  have hredirect : ∀ {op : RedirectOp} {m : Lexer},
      Sat (redirect span (redirectToken fd op)) m NotWord :=
    notWord_redirect fun _ h => .inl (redirectToken_redirect h)
  apply notWord_bind
  intro _ m
  apply notWord_bind
  intro _ m
  split
  · exact notWord_bind fun _ _ => hredirect
  split
  · exact notWord_bind fun _ _ => hredirect
  split
  · apply notWord_bind
    intro _ m
    apply notWord_bind
    intro _ m
    apply notWord_bind
    intro _ m
    split
    · exact notWord_redirect fun _ h => by cases h
    · exact notWord_redirect fun _ h => .inr (dupToken_redirect h)
  · exact hredirect

theorem notWord_scanRedirectLt {fd : Option (List Char)} {span : Span} {l : Lexer} :
    Sat (scanRedirectLt fd span) l NotWord := by
  have hredirect : ∀ {op : RedirectOp} {m : Lexer},
      Sat (redirect span (redirectToken fd op)) m NotWord :=
    notWord_redirect fun _ h => .inl (redirectToken_redirect h)
  apply notWord_bind
  intro _ m
  apply notWord_bind
  intro _ m
  split
  · apply notWord_bind
    intro _ m
    apply notWord_bind
    intro _ m
    split
    · exact notWord_bind fun _ _ => notWord_redirect fun _ h => by cases h
    split
    · exact notWord_redirect fun _ h => by cases h
    · exact hredirect
  · exact hredirect

theorem notWord_scanDelimitedName {l : Lexer} : Sat scanDelimitedName l NotWord := by
  apply notWord_bind
  intro _ m
  apply notWord_bind
  intro _ m
  apply notWord_bind
  intro _ m
  apply notWord_bind
  intro _ m
  apply notWord_bind
  intro _ m
  split
  · exact notWord_fail
  split
  · exact notWord_fail
  split
  · exact notWord_bind fun _ _ => notWord_pure fun _ h => by cases h
  split
  · exact notWord_fail
  · exact notWord_fail

def NoWord (r : Except LexError (Option Token)) (_ : Lexer) : Prop := ∀ w, r ≠ .ok (some (.word w))

theorem noWord_bind {α : Type} {x : Lex α} {f : α → Lex (Option Token)} {l : Lexer}
    (h : ∀ a t, Sat (f a) t NoWord) : Sat (x >>= f) l NoWord :=
  sat_bind_all h fun _ _ _ h => by cases h

theorem noWord_scanDollar {group : Group} {l : Lexer} : Sat (scanDollar group) l NoWord := by
  apply noWord_bind
  intro _ m
  split
  · exact noWord_bind fun _ _ => sat_pure fun _ h => by cases h
  split
  · exact sat_fail fun _ h => by cases h
  split
  · apply sat_bind
    refine notWord_scanDelimitedName.mono ?_
    intro r m hname
    cases r with
    | error e => exact fun _ h => by cases h
    | ok token =>
      apply sat_pure
      intro w h
      cases h
      exact hname w rfl
  split
  · exact noWord_bind fun _ _ => noWord_bind fun _ _ => sat_pure fun _ h => by cases h
  · exact sat_pure fun _ h => by cases h

/-- Outside `$[…]` only a bare word is read as a word. -/
theorem notWord_scanToken {eof : EofPolicy} {group : Group} {rules : PathRules} {span : Span}
    {l : Lexer} (hexpr : l.inExpr = false) (harm : arm false l.suppressNewline l.rest ≠ .bare) :
    Sat (scanToken eof group rules span) l NotWord := by
  apply sat_bind
  apply sat_get
  show Sat _ l NotWord
  rw [hexpr]
  have hbegins := arm_begins false l.suppressNewline l.rest
  cases h : arm false l.suppressNewline l.rest with
  | eof =>
    apply notWord_bind
    intro _ m
    split
    · exact notWord_fail
    · exact notWord_pure fun _ h => by cases h
  | op op width => exact notWord_bind fun _ _ => notWord_pure fun _ h => by cases h
  | hashQuoted => exact notWord_bind fun _ _ => notWord_scanQuoted
  | separator =>
    apply notWord_bind
    intro _ m
    apply notWord_bind
    intro _ m
    apply notWord_bind
    intro hard m
    cases hard
    · exact notWord_pure fun _ h => by cases h
    · exact notWord_pure fun _ h => by cases h
  | opener kind =>
    apply notWord_bind
    intro _ m
    apply notWord_bind
    intro _ m
    cases kind
    all_goals exact notWord_pure fun _ h => by cases h
  | closer kind =>
    have hright : ∀ w, kind.right ≠ .word w := by cases kind <;> exact fun _ h => by cases h
    apply notWord_bind
    intro _ m
    apply notWord_bind
    intro _ m
    split
    · exact notWord_pure hright
    split
    · exact notWord_bind fun _ _ => notWord_pure hright
    · exact notWord_fail
  | simple token =>
    rw [h] at hbegins
    exact notWord_bind fun _ _ => notWord_pure hbegins.1
  | ampersand =>
    apply notWord_bind
    intro _ m
    apply notWord_bind
    intro _ m
    exact notWord_bind fun _ _ => notWord_fail
  | dollar =>
    apply notWord_bind
    intro _ m
    apply sat_bind
    refine noWord_scanDollar.mono ?_
    intro r m hdollar
    cases r with
    | error e => exact fun _ h => by cases h
    | ok token =>
      apply notWord_bind
      intro _ m
      cases token with
      | none => exact notWord_fail
      | some token => exact notWord_pure fun w h => hdollar w (by rw [h])
  | quoted => exact notWord_scanQuoted
  | doubleQuoted =>
    apply notWord_bind
    intro _ m
    apply notWord_bind
    intro _ m
    exact notWord_bind fun _ _ => notWord_pure fun _ h => by cases h
  | redirectGt => exact notWord_scanRedirectGt
  | redirectLt => exact notWord_scanRedirectLt
  | fdRedirect =>
    apply notWord_bind
    intro _ m
    apply notWord_bind
    intro _ m
    apply notWord_bind
    intro _ m
    split
    · exact notWord_scanRedirectGt
    · exact notWord_scanRedirectLt
  | spread => exact notWord_bind fun _ _ => notWord_pure fun _ h => by cases h
  | tag =>
    apply notWord_bind
    intro _ m
    apply notWord_bind
    intro _ m
    apply notWord_bind
    intro _ m
    apply notWord_bind
    intro _ m
    split
    · exact notWord_fail
    · exact notWord_pure fun _ h => by cases h
  | numeral len =>
    rw [h] at hbegins
    cases hbegins.1
  | bare => exact absurd h harm
  | control ch => exact notWord_bind fun _ _ => notWord_fail

end Lex

/-- What makes `s` a bare word: how the lexer reads it with nothing after it. -/
structure BareShape (rules : PathRules) (s : List Char) : Prop where
  nonempty : s ≠ []
  comma : ',' ∉ s
  unclassified : WordLiteral.classify s = none
  skips : inlineWhitespace false false s = 0
  arm : arm false false s = .bare
  whole : bareFragment false false s = s.length
  shape : Word.shape rules s = .plain (String.ofList s) ∨ Word.shape rules s = .path (String.ofList s)
  visible : s.any isBidiControl = false

theorem bareFragment_le (inExpr suppress : Bool) (s : List Char) :
    bareFragment inExpr suppress s ≤ s.length := by
  induction s with
  | nil => exact Nat.le_refl _
  | cons ch rest ih =>
    unfold bareFragment
    simp only [List.length_cons]
    repeat' split
    all_goals omega

theorem isPrefix_tokenizeLoop {next : Lex Lexeme} {fuel : ℕ} {tokens lexed : List Lexeme} {l l' : Lexer}
    (h : tokenizeLoop next fuel tokens l = some (.ok lexed, l')) : tokens <+: lexed := by
  induction fuel generalizing tokens l with
  | zero => cases h
  | succ fuel ih =>
    obtain ⟨lexeme, m, _, hrest⟩ := Run.bind_eq_ok.mp h
    split at hrest
    · cases hrest
      exact List.prefix_append _ _
    · exact (List.prefix_append _ _).trans (ih hrest)

/-- The loop of a source that was read. -/
theorem lex_eq_ok {rules : PathRules} {s : String} {tokens : List Lexeme}
    (h : lex rules s = some (.ok tokens)) : s.toList.any isBidiControl = false ∧ ∃ l',
      tokenizeLoop (Lex.nextToken .requireClosed
        (Lex.scanTokenGroup .requireClosed rules Lex.nestingDepthLimit) rules)
        (s.toList.length + 1) [] (Lexer.new s.toList) = some (.ok tokens, l') := by
  obtain ⟨r, hr, htokens⟩ := Option.map_eq_some_iff.mp h
  unfold tokenize at hr
  dsimp only at hr
  split at hr
  · cases hr
    cases htokens
  split at hr
  · cases hr
    cases htokens
  next hvisible =>
  refine ⟨any_bidi_of_findBidi hvisible, ?_⟩
  obtain ⟨⟨r', l'⟩, hloop, hr'⟩ := Option.map_eq_some_iff.mp hr
  subst hr'
  cases r' with
  | error e => cases htokens
  | ok tokens' =>
    cases htokens
    exact ⟨l', hloop⟩

theorem lex_word {rules : PathRules} {s : String} {tokens : List Lexeme} {w : Word} {span : Span}
    (h : lex rules s = some (.ok tokens))
    (hword : (tokens.filter fun l => !l.token.isEof) = [.mk (.word w) span]) :
    ∃ group m, Lex.nextToken .requireClosed group rules (Lexer.new s.toList) =
      some (.ok (.mk (.word w) span), m) := by
  obtain ⟨_, l', hloop⟩ := lex_eq_ok h
  obtain ⟨lexeme, m, hnext, hrest⟩ := Run.bind_eq_ok.mp hloop
  have hlexeme : lexeme = .mk (.word w) span := by
    split at hrest
    · next heof =>
      cases hrest
      simp [heof] at hword
    · next hproper =>
      obtain ⟨more, rfl⟩ := isPrefix_tokenizeLoop hrest
      simp only [List.nil_append, List.singleton_append, List.filter_cons] at hword
      rw [if_pos (by simpa using hproper)] at hword
      exact (List.cons.inj hword).1
  rw [hlexeme] at hnext
  exact ⟨_, m, hnext⟩

theorem Lex.scanToken_bare_inv {eof : EofPolicy} {group : Lex.Group} {rules : PathRules} {span : Span}
    {l m : Lexer} {w : Word} (hexpr : l.inExpr = false)
    (h : Lex.scanToken eof group rules span l = some (.ok (.word w), m)) :
    arm false l.suppressNewline l.rest = .bare ∧ w = Word.shape rules (l.rest.take l.bareFragment) := by
  have harm : arm false l.suppressNewline l.rest = .bare := by
    by_contra harm
    exact Lex.notWord_scanToken hexpr harm _ _ h w rfl
  refine ⟨harm, ?_⟩
  unfold Lex.scanToken at h
  rw [Run.get_bind, hexpr, harm] at h
  dsimp only at h
  unfold Lex.scanBareWord at h
  rw [Run.get_bind] at h
  split at h
  · cases h
  · rw [Lex.take_bind] at h
    cases h
    rfl

theorem isBareWord_shape {rules : PathRules} {s : String} (h : isBareWord rules s = true) :
    BareShape rules s.toList := by
  unfold isBareWord at h
  split at h
  · cases h
  next hno =>
  simp only [Bool.or_eq_true, decide_eq_true_eq, not_or, Bool.not_eq_true, Option.isSome_eq_false_iff,
    Option.isNone_iff_eq_none] at hno
  obtain ⟨⟨hne, hcomma⟩, hclass⟩ := hno
  have hword : ∃ tokens w span, lex rules s = some (.ok tokens) ∧
      (tokens.filter fun l => !l.token.isEof) = [.mk (.word w) span] ∧
      (w = .plain s ∨ w = .path s) := by
    split at h
    · next tokens hlex =>
      split at h
      · next w span hfilter => exact ⟨tokens, _, span, hlex, hfilter, .inl (by rw [of_decide_eq_true h])⟩
      · next w span hfilter => exact ⟨tokens, _, span, hlex, hfilter, .inr (by rw [of_decide_eq_true h])⟩
      · cases h
    · cases h
  obtain ⟨tokens, w, span, hlex, hfilter, hw⟩ := hword
  obtain ⟨group, m, hnext⟩ := lex_word hlex hfilter
  have htext : w.text = s.toList := by
    rcases hw with rfl | rfl
    · rfl
    · rfl
  have hne' : s.toList ≠ [] := by simpa using hne
  -- The word begins where the source does, since it has all its characters.
  unfold Lex.nextToken at hnext
  rw [Run.modify_bind, Run.get_bind] at hnext
  obtain ⟨token, m', hscan, hlexeme⟩ := Run.bind_eq_ok.mp hnext
  rw [Run.get_bind] at hlexeme
  cases hlexeme
  have hskipped : (Lexer.new s.toList).skipInlineWhitespace.rest =
      s.toList.drop (inlineWhitespace false false s.toList) := rfl
  obtain ⟨harm, hshape⟩ := Lex.scanToken_bare_inv rfl hscan
  have htake := Word.shape_text rules ((Lexer.new s.toList).skipInlineWhitespace.rest.take
    (Lexer.new s.toList).skipInlineWhitespace.bareFragment)
  rw [← hshape, htext, hskipped] at htake
  have hlen := congrArg List.length htake
  rw [List.length_take, List.length_drop] at hlen
  have hpos := List.length_pos_of_ne_nil hne'
  have hskips : inlineWhitespace false false s.toList = 0 := by omega
  rw [hskipped, hskips, List.drop_zero] at harm
  have hfragment : (Lexer.new s.toList).skipInlineWhitespace.bareFragment =
      bareFragment false false s.toList := by
    unfold Lexer.bareFragment
    rw [hskipped, hskips, List.drop_zero]
    rfl
  rw [hskips, List.drop_zero] at htake
  have hwhole : bareFragment false false s.toList = s.toList.length := by
    have hle := bareFragment_le false false s.toList
    rw [hfragment] at hlen
    omega
  refine ⟨hne', hcomma, hclass, hskips, harm, hwhole, ?_, (lex_eq_ok hlex).1⟩
  rw [hskipped, hskips, List.drop_zero, ← htake] at hshape
  rw [← hshape, String.ofList_toList]
  exact hw

/-! ### With something after it -/

/-- What may stand after a word. -/
def Follows (suppress : Bool) (follow : List Char) : Prop :=
  ∀ ch ∈ follow.head?, ch = ' ' ∨ ch = ']' ∨ ch = ',' ∧ suppress = true

theorem Follows.cons {suppress : Bool} {ch : Char} {rest : List Char}
    (h : Follows suppress (ch :: rest)) : ch = ' ' ∨ ch = ']' ∨ ch = ',' ∧ suppress = true := h ch rfl

theorem bareFragment_follow {suppress : Bool} {follow : List Char} (h : Follows suppress follow) :
    bareFragment false suppress follow = 0 := by
  cases follow with
  | nil => rfl
  | cons ch rest =>
    rcases h.cons with rfl | rfl | ⟨rfl, rfl⟩
    · rfl
    · rfl
    · rfl

theorem bareFragment_cons {ch : Char} {rest : List Char}
    (h : bareFragment false false (ch :: rest) = (ch :: rest).length) :
    continuesBareWord ch = true ∧ ¬(ch = ':' ∧ colonSplits rest = true) ∧
      bareFragment false false rest = rest.length := by
  unfold bareFragment at h
  have hle := bareFragment_le false false rest
  simp only [List.length_cons] at h
  split at h
  · omega
  next hbare =>
  split at h
  · omega
  split at h
  · omega
  split at h
  · omega
  next hcolon => exact ⟨by simpa using hbare, hcolon, by omega⟩

theorem colonSplits_append {ch : Char} {rest : List Char} (follow : List Char)
    (h : ¬(ch = ':' ∧ colonSplits rest = true)) : ¬(ch = ':' ∧ colonSplits (rest ++ follow) = true) := by
  cases rest with
  | nil =>
    intro hcolon
    exact h ⟨hcolon.1, rfl⟩
  | cons c rest => exact h

theorem bareFragment_append {suppress : Bool} {s follow : List Char} (hfollow : Follows suppress follow)
    (hcomma : ',' ∉ s) (h : bareFragment false false s = s.length) :
    bareFragment false suppress (s ++ follow) = s.length := by
  induction s with
  | nil => exact bareFragment_follow hfollow
  | cons ch rest ih =>
    obtain ⟨hbare, hcolon, hrest⟩ := bareFragment_cons h
    have hnext := ih (fun hmem => hcomma (List.mem_cons_of_mem ch hmem)) hrest
    rw [List.cons_append]
    unfold bareFragment
    rw [if_neg (by simp [hbare]), if_neg, if_neg (by simp), if_neg (colonSplits_append follow hcolon),
      hnext, List.length_cons, Nat.add_comm]
    intro hch
    exact hcomma (by rw [hch.1]; exact List.mem_cons_self)

/-- What begins a bare word outside `$[…]`. -/
structure BareStart (ch : Char) (rest : List Char) : Prop where
  bare : continuesBareWord ch = true
  ampersand : ch ≠ '&'
  question : ch ≠ '?'
  fd : ¬(ch.isDigit = true ∧ isFdRedirectStart (ch :: rest) = true)
  spread : ¬(ch = '.' ∧ rest.take 2 = ['.', '.'])

theorem ite_bare {c : Prop} [Decidable c] {a b : Arm} (h : (if c then a else b) = .bare)
    (ha : a ≠ .bare) : ¬c ∧ b = .bare := by
  split at h
  · exact absurd h ha
  · exact ⟨‹_›, h⟩

theorem bareStart_of_arm {suppress : Bool} {ch : Char} {rest : List Char}
    (h : arm false suppress (ch :: rest) = .bare) : BareStart ch rest := by
  unfold arm at h
  dsimp only at h
  obtain ⟨_, h⟩ := ite_bare h (by simp)
  obtain ⟨_, h⟩ := ite_bare h (by simp)
  obtain ⟨_, h⟩ := ite_bare h (by simp)
  obtain ⟨_, h⟩ := ite_bare h (by simp)
  obtain ⟨_, h⟩ := ite_bare h (by simp)
  obtain ⟨_, h⟩ := ite_bare h (by simp)
  obtain ⟨_, h⟩ := ite_bare h (by simp)
  obtain ⟨_, h⟩ := ite_bare h (by simp)
  obtain ⟨_, h⟩ := ite_bare h (by simp)
  obtain ⟨hamp, h⟩ := ite_bare h (by simp)
  obtain ⟨_, h⟩ := ite_bare h (by simp)
  obtain ⟨_, h⟩ := ite_bare h (by simp)
  obtain ⟨_, h⟩ := ite_bare h (by simp)
  obtain ⟨_, h⟩ := ite_bare h (by simp)
  obtain ⟨hquestion, h⟩ := ite_bare h (by simp)
  obtain ⟨_, h⟩ := ite_bare h (by simp)
  obtain ⟨_, h⟩ := ite_bare h (by simp)
  obtain ⟨_, h⟩ := ite_bare h (by simp)
  obtain ⟨_, h⟩ := ite_bare h (by simp)
  obtain ⟨hfd, h⟩ := ite_bare h (by simp)
  obtain ⟨hspread, h⟩ := ite_bare h (by simp)
  obtain ⟨_, h⟩ := ite_bare h (by simp)
  refine ⟨?_, hamp, hquestion, fun hdigit => hfd ⟨rfl, hdigit⟩, hspread⟩
  by_contra hbare
  rw [if_neg hbare] at h
  cases h

theorem BareStart.arm_eq {suppress : Bool} {ch : Char} {rest : List Char} (h : BareStart ch rest)
    (hhash : ch ≠ '#') (hcomma : ch ≠ ',') : arm false suppress (ch :: rest) = .bare := by
  have hne : ∀ {c : Char}, continuesBareWord c = false → ch ≠ c := by
    intro c hc he
    have hbare := h.bare
    rw [he, hc] at hbare
    cases hbare
  have hline : ¬(ch = '\n' ∨ ch = ';') := by
    rintro (he | he)
    · exact hne rfl he
    · exact hne rfl he
  unfold arm
  simp only [Bool.false_eq_true, if_false]
  rw [if_neg (fun he => hhash he.1), if_neg hline, if_neg (hne rfl), if_neg (hne rfl), if_neg (hne rfl),
    if_neg (hne rfl), if_neg (hne rfl), if_neg (hne rfl), if_neg (hne rfl), if_neg h.ampersand,
    if_neg (fun he => hcomma he.1), if_neg (hne rfl), if_neg (hne rfl), if_neg (hne rfl),
    if_neg h.question, if_neg (hne rfl), if_neg (hne rfl), if_neg (hne rfl), if_neg (hne rfl),
    if_neg (fun he => h.fd he.2), if_neg h.spread, if_neg (hne rfl)]
  exact if_pos h.bare

theorem isFdRedirectStart_append {suppress : Bool} {s follow : List Char}
    (hfollow : Follows suppress follow) (h : isFdRedirectStart (s ++ follow) = true) :
    isFdRedirectStart s = true := by
  induction s with
  | nil =>
    cases follow with
    | nil => exact h
    | cons ch rest =>
      rcases hfollow.cons with rfl | rfl | ⟨rfl, _⟩
      · cases h
      · cases h
      · cases h
  | cons ch rest ih =>
    unfold isFdRedirectStart at h ih ⊢
    by_cases hdigit : ch.isDigit = true
    · simp only [List.cons_append, List.takeWhile_cons_of_pos hdigit, List.length_cons,
        List.getElem?_cons_succ] at h ⊢
      exact ih h
    · simpa only [List.cons_append, List.takeWhile_cons_of_neg hdigit, List.length_nil,
        List.getElem?_cons_zero] using h

theorem take_two_append {suppress : Bool} {rest follow : List Char} (hfollow : Follows suppress follow)
    (h : (rest ++ follow).take 2 = ['.', '.']) : rest.take 2 = ['.', '.'] := by
  have hdot : follow.head? ≠ some '.' := by
    intro he
    rcases hfollow '.' he with he | he | he
    · exact absurd he (by decide)
    · exact absurd he (by decide)
    · exact absurd he.1 (by decide)
  match rest, h with
  | [], h =>
    cases follow with
    | nil => cases h
    | cons c follow =>
      simp only [List.nil_append, List.take_succ_cons, List.cons.injEq] at h
      exact absurd (congrArg some h.1) hdot
  | [c], h =>
    cases follow with
    | nil => simp at h
    | cons d follow =>
      simp only [List.cons_append, List.nil_append, List.take_succ_cons, List.cons.injEq] at h
      exact absurd (congrArg some h.2.1) hdot
  | c :: d :: rest, h => simpa using h

namespace BareShape
variable {rules : PathRules} {s : List Char}

theorem head_ne_hash {ch : Char} {rest : List Char} (h : BareShape rules (ch :: rest)) : ch ≠ '#' := by
  intro he
  subst he
  have hskips := h.skips
  rw [inlineWhitespace_cons, if_neg (by decide), if_neg (by decide)] at hskips
  split at hskips
  · omega
  · next hquoted =>
    have hopens : hashOpensQuoted ('#' :: rest) = true := by simpa using hquoted
    have hquotes : Syntax.arm false false ('#' :: rest) = .hashQuoted := if_pos ⟨rfl, hopens⟩
    have harm := h.arm
    rw [hquotes] at harm
    cases harm

theorem arm_append {suppress : Bool} {follow : List Char} (h : BareShape rules s)
    (hfollow : Follows suppress follow) : Syntax.arm false suppress (s ++ follow) = .bare := by
  obtain ⟨ch, rest, rfl⟩ := List.exists_cons_of_ne_nil h.nonempty
  obtain ⟨hbare, hamp, hquestion, hfd, hspread⟩ := bareStart_of_arm h.arm
  have hstart : BareStart ch (rest ++ follow) :=
    ⟨hbare, hamp, hquestion, fun hdigit => hfd ⟨hdigit.1, isFdRedirectStart_append hfollow hdigit.2⟩,
      fun hdots => hspread ⟨hdots.1, take_two_append hfollow hdots.2⟩⟩
  apply hstart.arm_eq h.head_ne_hash
  intro he
  exact h.comma (by rw [he]; exact List.mem_cons_self)

theorem skips_append {suppress : Bool} {follow : List Char} (h : BareShape rules s) :
    inlineWhitespace suppress false (s ++ follow) = 0 := by
  obtain ⟨ch, rest, rfl⟩ := List.exists_cons_of_ne_nil h.nonempty
  have hbare := (bareStart_of_arm h.arm).bare
  have hne : ∀ {c : Char}, continuesBareWord c = false → ch ≠ c := by
    intro c hc he
    rw [he, hc] at hbare
    cases hbare
  have hblank : ¬(ch = ' ' ∨ ch = '\t' ∨ ch = '\r') := by
    rintro (he | he | he)
    · exact hne rfl he
    · exact hne rfl he
    · exact hne rfl he
  rw [List.cons_append, inlineWhitespace_cons, if_neg hblank, if_neg (fun he => hne rfl he.1),
    if_neg (fun he => h.head_ne_hash he.1)]

end BareShape

namespace Lex
open Run

theorem scanToken_bareShape {eof : EofPolicy} {group : Group} {rules : PathRules} {span : Span}
    {l : Lexer} {s follow : List Char} (hshape : BareShape rules s) (hexpr : l.inExpr = false)
    (hfollow : Follows l.suppressNewline follow) (h : l.rest = s ++ follow) :
    scanToken eof group rules span l = some (.ok (.word (Word.shape rules s)), l.advance s.length) := by
  have harm := hshape.arm_append hfollow
  have hfragment : l.bareFragment = s.length := by
    unfold Lexer.bareFragment
    rw [hexpr, h, bareFragment_append hfollow hshape.comma hshape.whole]
  have hcolon : ¬(l.peek = some ':' ∧ colonSplits l.rest.tail = true) := by
    obtain ⟨ch, rest, rfl⟩ := List.exists_cons_of_ne_nil hshape.nonempty
    have hsplit := colonSplits_append follow (bareFragment_cons hshape.whole).2.1
    simpa [Lexer.peek, h] using hsplit
  unfold scanToken
  rw [get_bind, hexpr, h, harm]
  dsimp only
  unfold scanBareWord
  rw [get_bind, if_neg hcolon, take_bind, pure_run, hfragment, h, List.take_left' rfl]

end Lex

/-! ## Double-quoted strings -/

def literalText : List (Span × StringPart) → Option String
  | [] => some ""
  | (_, .literal text) :: parts => (literalText parts).map (text ++ ·)
  | (_, .splice _) :: _ => none

namespace Lex
open Run

def LiteralRun.text (run : LiteralRun) : List Char := run.elim [] Prod.snd

theorem LiteralRun.text_push (run : LiteralRun) (at' : ℕ) (ch : Char) :
    LiteralRun.text (run.push at' ch) = LiteralRun.text run ++ [ch] := by
  cases run <;> rfl

theorem LiteralRun.literalText_flush (run : LiteralRun) (stop : ℕ) :
    literalText (run.flush [] stop) = some (String.ofList (LiteralRun.text run)) := by
  cases run with
  | none => rfl
  | some run => simp [LiteralRun.flush, literalText, LiteralRun.text]

/-- The number of a bidirectional control, in the digits of its escape. -/
theorem upperHex_bidi {c : Char} (h : isBidiControl c = true) :
    (upperHex 0 c.toNat).all isHexDigit = true ∧ (upperHex 0 c.toNat).length = 4 ∧
      hexNumber (upperHex 0 c.toNat) = c.toNat := by
  unfold isBidiControl bidiControlName at h
  by_cases h1 : c.toNat = 0x202A
  · rw [h1]; decide
  by_cases h2 : c.toNat = 0x202B
  · rw [h2]; decide
  by_cases h3 : c.toNat = 0x202C
  · rw [h3]; decide
  by_cases h4 : c.toNat = 0x202D
  · rw [h4]; decide
  by_cases h5 : c.toNat = 0x202E
  · rw [h5]; decide
  by_cases h6 : c.toNat = 0x2066
  · rw [h6]; decide
  by_cases h7 : c.toNat = 0x2067
  · rw [h7]; decide
  by_cases h8 : c.toNat = 0x2068
  · rw [h8]; decide
  by_cases h9 : c.toNat = 0x2069
  · rw [h9]; decide
  rw [if_neg h1, if_neg h2, if_neg h3, if_neg h4, if_neg h5, if_neg h6, if_neg h7, if_neg h8,
    if_neg h9] at h
  cases h

theorem takeWhile_take {p : Char → Bool} {front rest : List Char} {stop : Char} {n : ℕ}
    (hall : front.all p = true) (hstop : p stop = false) (hn : front.length ≤ n) :
    ((front ++ stop :: rest).take n).takeWhile p = front := by
  obtain ⟨k, rfl⟩ := Nat.exists_eq_add_of_le hn
  rw [List.take_length_add_append]
  rw [List.takeWhile_append_of_pos (fun c hc => List.all_eq_true.mp hall c hc)]
  cases k with
  | zero => simp
  | succ k => simp [hstop]

theorem scanUnicodeEscape_bidi {escape : Span} {l : Lexer} {c : Char} {rest : List Char}
    (hbidi : isBidiControl c = true) (h : l.rest = '{' :: (upperHex 0 c.toNat ++ '}' :: rest)) :
    scanUnicodeEscape escape l = some (.ok (some c), l.advance 6) := by
  obtain ⟨hhex, hlen, hnumber⟩ := upperHex_bidi hbidi
  have hopen : (l.advance 1).rest = upperHex 0 c.toNat ++ '}' :: rest := by
    rw [Lexer.rest_advance, h]
    rfl
  have hclose : ((l.advance 1).advance 4).rest = '}' :: rest := by
    rw [Lexer.rest_advance, hopen, List.drop_left' hlen]
  have hne : upperHex 0 c.toNat ≠ [] := by
    intro he
    rw [he] at hlen
    cases hlen
  have hdigits : takeHex 6 (l.advance 1) =
      some (.ok (upperHex 0 c.toNat), (l.advance 1).advance 4) := by
    unfold takeHex
    rw [get_bind, hopen, takeWhile_take hhex rfl (by omega), hlen, take_run, hopen, List.take_left' hlen]
  have hvalid : c.toNat.isValidChar := c.valid
  unfold scanUnicodeEscape
  rw [bind_ok (eat_run h), get_bind, if_neg (by simp), bind_ok hdigits, if_neg hne,
    bind_ok (eat_run hclose), get_bind, if_neg (by simp), hnumber, if_pos hvalid, pure_run,
    Char.ofNat_toNat, Lexer.advance_advance, Lexer.advance_advance]

theorem escapeChar_length_pos (c : Char) : 0 < (escapeChar c).length := by
  unfold escapeChar
  repeat' split
  all_goals simp

theorem escapeForInterpolation_length_le (s : List Char) :
    s.length ≤ (escapeForInterpolation s).length := by
  induction s with
  | nil => exact Nat.le_refl _
  | cons c s ih =>
    have hchar := escapeChar_length_pos c
    have hsplit : escapeForInterpolation (c :: s) = escapeChar c ++ escapeForInterpolation s := rfl
    rw [hsplit, List.length_append, List.length_cons]
    omega

theorem scanEscape_cons {eof : EofPolicy} {escape opened : Span} {l : Lexer} {ch : Char}
    {rest : List Char} (h : l.rest = ch :: rest) :
    scanDoubleQuotedEscape eof escape opened l =
      (if ch = 'n' then pure (some '\n')
        else if ch = 'r' then pure (some '\r')
        else if ch = 't' then pure (some '\t')
        else if ch = '0' then pure (some '\x00')
        else if ch = 'e' then pure (some '\x1b')
        else if ch ∈ ['\\', '"', '$', '!', '~'] then pure (some ch)
        else if ch = '\n' then pure none
        else if ch = '\r' then do
          let _ ← eat '\n'
          pure none
        else if ch = 'x' then scanHexEscape escape
        else if ch = 'u' then scanUnicodeEscape escape
        else if ch = '\'' then
          error ((l.advance 1).finish escape)
            "`'` needs no escape inside a double-quoted string: write it directly"
        else
          error ((l.advance 1).finish escape)
            ("unknown escape `\\" ++ String.singleton ch ++ "` in double-quoted string") :
        Lex (Option Char)) (l.advance 1) := by
  unfold scanDoubleQuotedEscape
  rw [get_bind, h]
  rfl

/-- The escape of a character, after its backslash. -/
theorem scanEscape_escapeChar {eof : EofPolicy} {escape opened : Span} {l : Lexer} {c : Char}
    {body rest : List Char} (hbody : escapeChar c = '\\' :: body) (h : l.rest = body ++ rest) :
    scanDoubleQuotedEscape eof escape opened l = some (.ok (some c), l.advance body.length) := by
  unfold escapeChar at hbody
  split at hbody
  · next hmem =>
    cases hbody
    rw [scanEscape_cons h]
    simp only [List.mem_cons, List.not_mem_nil, or_false] at hmem
    rcases hmem with rfl | rfl | rfl | rfl
    all_goals rfl
  next hmem =>
  split at hbody
  · next hline =>
    cases hbody
    rw [scanEscape_cons h, hline]
    rfl
  split at hbody
  · next htab =>
    cases hbody
    rw [scanEscape_cons h, htab]
    rfl
  split at hbody
  · next hreturn =>
    cases hbody
    rw [scanEscape_cons h, hreturn]
    rfl
  split at hbody
  · next hbidi =>
    cases hbody
    have hrest : (l.advance 1).rest = '{' :: (upperHex 0 c.toNat ++ '}' :: rest) := by
      rw [Lexer.rest_advance, h]
      simp
    rw [scanEscape_cons h]
    show scanUnicodeEscape escape (l.advance 1) = _
    rw [scanUnicodeEscape_bidi hbidi hrest, Lexer.advance_advance]
    have hlen := (upperHex_bidi hbidi).2.1
    simp [hlen]
  · cases hbody
    simp at hmem

/-- A character is pushed as its escape is read. Only a leading `~` would not be text. -/
theorem doubleQuotedLoop_escapeChar {eof : EofPolicy} {group : Group} {opened : Span} {fuel : ℕ}
    {parts : List (Span × StringPart)} {run : LiteralRun} {l : Lexer} {c : Char} {rest : List Char}
    (htilde : c = '~' → l.pos ≠ opened.start + 1) (h : l.rest = escapeChar c ++ rest) :
    doubleQuotedLoop eof group opened (fuel + 1) parts run l =
      doubleQuotedLoop eof group opened fuel parts (run.push l.pos c)
        (l.advance (escapeChar c).length) := by
  by_cases hescaped : ∃ body, escapeChar c = '\\' :: body
  · obtain ⟨body, hbody⟩ := hescaped
    rw [hbody, List.cons_append] at h
    have hrest : (l.advance 1).rest = body ++ rest := by
      rw [Lexer.rest_advance, h]
      rfl
    rw [doubleQuotedLoop, get_bind, h]
    dsimp only
    rw [if_neg (by decide), if_pos rfl, bumpSpanned_bind, bind_ok (scanEscape_escapeChar hbody hrest),
      Lexer.advance_advance, hbody, List.length_cons, Nat.add_comm]
  · have hraw : escapeChar c = [c] ∧ c ∉ ['\\', '"', '$', '!'] := by
      unfold escapeChar at hescaped ⊢
      split at hescaped
      · exact absurd ⟨_, rfl⟩ hescaped
      split at hescaped
      · exact absurd ⟨_, rfl⟩ hescaped
      split at hescaped
      · exact absurd ⟨_, rfl⟩ hescaped
      split at hescaped
      · exact absurd ⟨_, rfl⟩ hescaped
      split at hescaped
      · exact absurd ⟨_, rfl⟩ hescaped
      · next hmem hline htab hreturn hbidi =>
        rw [if_neg hmem, if_neg hline, if_neg htab, if_neg hreturn, if_neg hbidi]
        exact ⟨rfl, hmem⟩
    obtain ⟨heq, hmem⟩ := hraw
    simp only [List.mem_cons, List.not_mem_nil, or_false, not_or] at hmem
    rw [heq, List.singleton_append] at h
    rw [doubleQuotedLoop, get_bind, h, heq]
    dsimp only
    rw [if_neg hmem.2.1, if_neg hmem.1, if_neg (by simp [hmem.2.2]),
      if_neg (fun hc => htilde hc.1 hc.2.1), advance_bind]
    rfl

/-- The rest of a string, up to its closing quote, is its text. -/
theorem doubleQuotedLoop_escape {eof : EofPolicy} {group : Group} {opened : Span} {fuel : ℕ}
    {run : LiteralRun} {l : Lexer} {s follow : List Char} (hfuel : s.length < fuel)
    (hpos : opened.start + 1 ≤ l.pos) (htilde : s.head? = some '~' → l.pos ≠ opened.start + 1)
    (h : l.rest = escapeForInterpolation s ++ '"' :: follow) :
    ∃ parts, doubleQuotedLoop eof group opened fuel [] run l =
        some (.ok parts, l.advance ((escapeForInterpolation s).length + 1)) ∧
      literalText parts = some (String.ofList (LiteralRun.text run ++ s)) := by
  induction s generalizing fuel run l with
  | nil =>
    obtain ⟨fuel, rfl⟩ := Nat.exists_eq_add_of_le' hfuel
    refine ⟨run.flush [] l.pos, ?_, ?_⟩
    · show doubleQuotedLoop eof group opened (fuel + 1) [] run l = _
      rw [doubleQuotedLoop, get_bind, h]
      rfl
    · rw [List.append_nil]
      exact LiteralRun.literalText_flush run l.pos
  | cons c s ih =>
    obtain ⟨fuel, rfl⟩ := Nat.exists_eq_add_of_le' (Nat.zero_lt_of_lt hfuel)
    have hsplit : escapeForInterpolation (c :: s) = escapeChar c ++ escapeForInterpolation s := rfl
    rw [hsplit, List.append_assoc] at h
    have hstep : doubleQuotedLoop eof group opened (fuel + 1) [] run l = _ :=
      doubleQuotedLoop_escapeChar (fun hc => htilde (by rw [hc]; rfl)) h
    have hreads : l.Reads (escapeChar c) (l.advance (escapeChar c).length) := by
      have hread := Lexer.Reads.advance l (escapeChar c).length
      rwa [h, List.take_left' rfl] at hread
    have hnext : l.pos < (l.advance (escapeChar c).length).pos := by
      have hlen := Text.length_le_size (escapeChar c)
      have hchar := escapeChar_length_pos c
      rw [hreads.pos_eq]
      omega
    have hrest : (l.advance (escapeChar c).length).rest = escapeForInterpolation s ++ '"' :: follow := by
      rw [Lexer.rest_advance, h, List.drop_left' rfl]
    obtain ⟨parts, hloop, htext⟩ := ih (Nat.lt_of_succ_lt_succ hfuel)
      (show opened.start + 1 ≤ _ by omega) (fun _ => by omega) hrest
    refine ⟨parts, ?_, ?_⟩
    · rw [hstep, hloop, Lexer.advance_advance, hsplit, List.length_append, Nat.add_assoc]
    · rw [htext, LiteralRun.text_push, List.append_assoc, List.singleton_append]

/-- The loop over a whole string, whose leading `~` is escaped. -/
theorem doubleQuotedLoop_home {eof : EofPolicy} {group : Group} {opened : Span} {fuel : ℕ} {l : Lexer}
    {s follow home : List Char} (hfuel : s.length < fuel) (hpos : l.pos = opened.start + 1)
    (hhome : home = if s.head? = some '~' then ['\\'] else [])
    (h : l.rest = home ++ escapeForInterpolation s ++ '"' :: follow) :
    ∃ parts, doubleQuotedLoop eof group opened fuel [] none l =
        some (.ok parts, l.advance ((home ++ escapeForInterpolation s).length + 1)) ∧
      literalText parts = some (String.ofList s) := by
  by_cases htilde : s.head? = some '~'
  · obtain ⟨s', rfl⟩ := List.head?_eq_some_iff.mp htilde
    rw [if_pos htilde] at hhome
    subst hhome
    obtain ⟨fuel, rfl⟩ := Nat.exists_eq_add_of_le' (Nat.zero_lt_of_lt hfuel)
    have hrest : l.rest = '\\' :: '~' :: (escapeForInterpolation s' ++ '"' :: follow) := h
    have hone : (l.advance 1).rest = '~' :: (escapeForInterpolation s' ++ '"' :: follow) := by
      rw [Lexer.rest_advance, hrest]
      rfl
    have htwo : (l.advance 2).rest = escapeForInterpolation s' ++ '"' :: follow := by
      rw [Lexer.rest_advance, hrest]
      rfl
    have hescape : ∀ escape, scanDoubleQuotedEscape eof escape opened (l.advance 1) =
        some (.ok (some '~'), l.advance 2) := by
      intro escape
      rw [scanEscape_cons hone, Lexer.advance_advance]
      rfl
    have hstep : doubleQuotedLoop eof group opened (fuel + 1) [] none l =
        doubleQuotedLoop eof group opened fuel [] (LiteralRun.push none l.pos '~') (l.advance 2) := by
      rw [doubleQuotedLoop, get_bind, hrest]
      dsimp only
      rw [if_neg (by decide), if_pos rfl, bumpSpanned_bind, bind_ok (hescape _)]
    have hnext : l.pos < (l.advance 2).pos := by
      have hreads := Lexer.Reads.advance l 2
      rw [hrest] at hreads
      have hadvance := hreads.pos_eq
      have hlen := Text.length_le_size ['\\', '~']
      simp only [List.take_succ_cons, List.take_zero] at hadvance
      simp only [List.length_cons, List.length_nil] at hlen
      omega
    obtain ⟨parts, hloop, htext⟩ : ∃ parts, doubleQuotedLoop eof group opened fuel []
        (LiteralRun.push none l.pos '~') (l.advance 2) = _ ∧ literalText parts = _ :=
      doubleQuotedLoop_escape (Nat.lt_of_succ_lt_succ hfuel) (by omega) (fun _ => by omega) htwo
    refine ⟨parts, ?_, htext⟩
    rw [hstep, hloop, Lexer.advance_advance]
    have hsplit : escapeForInterpolation ('~' :: s') = '~' :: escapeForInterpolation s' := rfl
    rw [hsplit]
    simp only [List.length_append, List.length_cons, List.length_nil]
    congr 3
    omega
  · rw [if_neg htilde] at hhome
    subst hhome
    exact doubleQuotedLoop_escape hfuel (by omega) (fun he => absurd he htilde) h

/-- A double-quoted string is read as its text. -/
theorem scanToken_escaped {eof : EofPolicy} {group : Group} {rules : PathRules} {span : Span} {l : Lexer}
    {s follow home : List Char} (hspan : span.start = l.pos) (hexpr : l.inExpr = false)
    (hhome : home = if s.head? = some '~' then ['\\'] else [])
    (h : l.rest = '"' :: (home ++ escapeForInterpolation s ++ '"' :: follow)) :
    ∃ parts, scanToken eof group rules span l =
        some (.ok (.doubleQuoted parts), l.advance ((home ++ escapeForInterpolation s).length + 2)) ∧
      literalText parts = some (String.ofList s) := by
  have hone : (l.advance 1).rest = home ++ escapeForInterpolation s ++ '"' :: follow := by
    rw [Lexer.rest_advance, h]
    rfl
  have hpos : (l.advance 1).pos = ((l.advance 1).finish span).start + 1 := by
    rw [(Lexer.Reads.advance_one h).pos_eq, Lexer.finish, hspan]
    rfl
  have hfuel : s.length < (l.advance 1).rest.length + 1 := by
    have hlen := escapeForInterpolation_length_le s
    rw [hone]
    simp only [List.length_append, List.length_cons]
    omega
  obtain ⟨parts, hloop, htext⟩ := doubleQuotedLoop_home hfuel hpos hhome hone
  refine ⟨parts, ?_, htext⟩
  unfold scanToken
  rw [get_bind, hexpr, h]
  show scanDoubleQuoted eof group span l = _
  unfold scanDoubleQuoted
  rw [advance_bind, get_bind, bind_ok hloop, pure_run, Lexer.advance_advance]
  congr 3
  omega

end Lex

/-! ## Images -/

/-- The string a token stands for: a word that is no literal, or a string with no splice. -/
def Token.denotes : Token → Option String
  | .word (.plain s) => if (WordLiteral.classify s.toList).isSome then none else some s
  | .word (.path s) => if (WordLiteral.classify s.toList).isSome then none else some s
  | .singleQuoted s => some s
  | .doubleQuoted parts => literalText parts
  | _ => none

/-- The three spellings of a quoted word. -/
inductive Image (rules : PathRules) (s : List Char) : List Char → Prop
  | bare : BareShape rules s → Image rules s s
  | raw (level : ℕ) : s.any isBidiControl = false → fenceAdmits s level = true →
      Image rules s (List.replicate level '#' ++ '\'' :: (s ++ '\'' :: List.replicate level '#'))
  | escaped : Image rules s
      ('"' :: ((if s.head? = some '~' then ['\\'] else []) ++ escapeForInterpolation s ++ ['"']))

theorem image_quoteWord (rules : PathRules) (s : String) :
    Image rules s.toList (quoteWord rules s).toList := by
  unfold quoteWord
  split
  · next hbare => exact .bare (isBareWord_shape hbare)
  split
  · rw [String.toList_ofList]
    exact .escaped
  · next hbidi =>
    rw [String.toList_ofList]
    have hadmits : fenceAdmits s.toList (fenceLevel s.toList s.toList.length 0) = true :=
      fenceAdmits_fenceLevel _ _ (by omega)
    rw [List.append_assoc, List.cons_append]
    exact .raw _ (Bool.eq_false_iff.mpr hbidi) hadmits

namespace Image
variable {rules : PathRules} {s image : List Char}

theorem skips (h : Image rules s image) (suppress : Bool) (follow : List Char) :
    inlineWhitespace suppress false (image ++ follow) = 0 := by
  cases h with
  | bare hshape => exact hshape.skips_append
  | raw level _ _ =>
    have hopens := (Lex.hashOpensQuoted_fence level (s ++ '\'' :: List.replicate level '#' ++ follow)).2
    cases level with
    | zero => rfl
    | succ level =>
      simp only [List.replicate_succ, List.cons_append, List.append_assoc] at hopens ⊢
      rw [inlineWhitespace_cons, if_neg (by decide), if_neg (by simp), if_neg (by simp [hopens])]
  | escaped => rfl

/-- A quoted word is read as one token, which stands for the string. -/
theorem scanToken {eof : EofPolicy} {group : Lex.Group} {span : Span} {l : Lexer} {follow : List Char}
    (h : Image rules s image) (hspan : span.start = l.pos) (hexpr : l.inExpr = false)
    (hfollow : Follows l.suppressNewline follow) (hrest : l.rest = image ++ follow) :
    ∃ token, Lex.scanToken eof group rules span l = some (.ok token, l.advance image.length) ∧
      token.denotes = some (String.ofList s) := by
  cases h with
  | bare hshape =>
    refine ⟨_, Lex.scanToken_bareShape hshape hexpr hfollow hrest, ?_⟩
    rcases hshape.shape with hword | hword
    · rw [hword]
      simp [Token.denotes, hshape.unclassified]
    · rw [hword]
      simp [Token.denotes, hshape.unclassified]
  | raw level _ hadmits =>
    refine ⟨.singleQuoted (String.ofList s), ?_, rfl⟩
    rw [Lex.scanToken_raw hadmits hexpr (by simpa using hrest)]
    congr 3
    simp only [List.length_append, List.length_cons, List.length_replicate]
    omega
  | escaped =>
    obtain ⟨parts, hscan, htext⟩ := Lex.scanToken_escaped hspan hexpr rfl (by simpa using hrest)
    refine ⟨.doubleQuoted parts, ?_, htext⟩
    rw [hscan]
    congr 3
    simp only [List.length_append, List.length_cons, List.length_nil]

/-- The same after one blank or none. -/
theorem nextToken {eof : EofPolicy} {group : Lex.Group} {l : Lexer} {gap follow : List Char}
    (h : Image rules s image) (hgap : gap = [] ∨ gap = [' ']) (hexpr : l.inExpr = false)
    (hfollow : Follows l.suppressNewline follow) (hrest : l.rest = gap ++ image ++ follow) :
    ∃ token, Lex.nextToken eof group rules l =
        some (.ok (.mk token ⟨l.pos + gap.length, l.pos + gap.length + size image⟩),
          l.advance (gap.length + image.length)) ∧
      token.denotes = some (String.ofList s) := by
  have hskip : l.skipInlineWhitespace = l.advance gap.length := by
    unfold Lexer.skipInlineWhitespace
    rcases hgap with rfl | rfl
    · rw [hrest, List.nil_append, h.skips]
      rfl
    · rw [hrest, List.append_assoc, List.singleton_append, inlineWhitespace_cons, if_pos (.inl rfl),
        h.skips]
      rfl
  have hafter : (l.advance gap.length).rest = image ++ follow := by
    rw [Lexer.rest_advance, hrest, List.append_assoc, List.drop_left' rfl]
  have hgapPos : (l.advance gap.length).pos = l.pos + gap.length := by
    have hreads := Lexer.Reads.advance l gap.length
    rw [hrest, List.append_assoc, List.take_left' rfl] at hreads
    rw [hreads.pos_eq]
    rcases hgap with rfl | rfl
    all_goals rfl
  obtain ⟨token, hscan, hdenotes⟩ : ∃ token, Lex.scanToken eof group rules
      (l.advance gap.length).span (l.advance gap.length) = _ ∧ _ :=
    h.scanToken rfl hexpr hfollow hafter
  refine ⟨token, ?_, hdenotes⟩
  unfold Lex.nextToken
  rw [Run.modify_bind, Run.get_bind, hskip, Run.bind_ok hscan, Run.get_bind, Run.pure_run,
    Lexer.advance_advance]
  have himagePos : (l.advance (gap.length + image.length)).pos = l.pos + gap.length + size image := by
    have hreads := Lexer.Reads.advance (l.advance gap.length) image.length
    rw [hafter, List.take_left' rfl, Lexer.advance_advance] at hreads
    rw [hreads.pos_eq, hgapPos]
  rw [Lexer.finish, himagePos, Lexer.span, Span.point, hgapPos]

end Image

end Ral.Syntax
