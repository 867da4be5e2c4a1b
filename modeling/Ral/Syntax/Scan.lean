import Ral.Syntax.Tiling

/-! # Scanning

What each scanning function of the lexer reads, those that open no group.
-/

namespace Ral.Syntax
open Text (size size_append)

namespace Lexer

def kinds (l : Lexer) : List DelimKind := l.delims.map OpenDelim.kind

theorem suppressNewline_eq (l : Lexer) : l.suppressNewline = suppresses l.kinds := by
  simp [suppressNewline, suppresses, innermost, kinds, List.head?_map]

@[simp] theorem kinds_advance (n : ℕ) (l : Lexer) : (l.advance n).kinds = l.kinds := rfl

@[simp] theorem rest_advance (n : ℕ) (l : Lexer) : (l.advance n).rest = l.rest.drop n := rfl

/-- The lexer has read `text`, and the open delimiters are what they were. -/
structure Reads (l : Lexer) (text : List Char) (l' : Lexer) : Prop where
  moves : l.cursor.Moves text l'.cursor
  kinds : l'.kinds = l.kinds

namespace Reads
variable {l l' l'' : Lexer} {text text' : List Char}

theorem refl (l : Lexer) : l.Reads [] l := ⟨.refl l.cursor, rfl⟩

theorem trans (h : l.Reads text l') (h' : l'.Reads text' l'') : l.Reads (text ++ text') l'' :=
  ⟨h.moves.trans h'.moves, h'.kinds.trans h.kinds⟩

theorem pos_eq (h : l.Reads text l') : l'.pos = l.pos + size text := h.moves.pos_eq

theorem advance (l : Lexer) (n : ℕ) : l.Reads (l.rest.take n) (l.advance n) :=
  ⟨l.cursor.moves_advance n, rfl⟩

theorem advance_one {ch : Char} {rest : List Char} (h : l.rest = ch :: rest) :
    l.Reads [ch] (l.advance 1) := by
  have hreads := advance l 1
  rwa [h] at hreads

theorem length_eq (h : l.Reads text l') : l.rest.length = text.length + l'.rest.length :=
  h.moves.length_eq

theorem of_eq (h : l.Reads text l') (hcursor : l''.cursor = l'.cursor)
    (hdelims : l''.delims = l'.delims) : l.Reads text l'' := by
  constructor
  · rw [hcursor]
    exact h.moves
  · rw [← h.kinds, Lexer.kinds, Lexer.kinds, hdelims]

end Reads

end Lexer

open Lexer (Reads)

/-! ## Whitespace -/

theorem hashOpensQuoted_line (text : List Char) :
    hashOpensQuoted ('#' :: text.takeWhile (· ≠ '\n')) = hashOpensQuoted ('#' :: text) := by
  have hrun : ∀ text : List Char, (text.takeWhile (· ≠ '\n'))[hashRun (text.takeWhile (· ≠ '\n'))]? =
      some '\'' ↔ text[hashRun text]? = some '\'' := by
    intro text
    induction text with
    | nil => rfl
    | cons ch rest ih =>
      by_cases hline : ch = '\n'
      · subst hline
        simp [hashRun]
      by_cases hhash : ch = '#'
      · subst hhash
        simpa [hashRun] using ih
      · simp [hashRun, hline, hhash]
  have h := hrun ('#' :: text)
  simp only [hashOpensQuoted]
  rw [List.takeWhile_cons] at h
  simpa using h

theorem inlineWhitespace_cons (suppress : Bool) (ch : Char) (rest : List Char) :
    inlineWhitespace suppress false (ch :: rest) =
      if ch = ' ' ∨ ch = '\t' ∨ ch = '\r' then 1 + inlineWhitespace suppress false rest
      else if ch = '\n' ∧ suppress = true then 1 + inlineWhitespace suppress false rest
      else if ch = '#' ∧ (!hashOpensQuoted (ch :: rest)) = true then
        1 + inlineWhitespace suppress true rest
      else 0 := rfl

theorem inlineWhitespace_comment {suppress : Bool} {ch : Char} {rest : List Char} (h : ch ≠ '\n') :
    inlineWhitespace suppress true (ch :: rest) = 1 + inlineWhitespace suppress true rest := by
  simp [inlineWhitespace, h]

theorem inlineWhitespace_line (suppress : Bool) (rest : List Char) :
    inlineWhitespace suppress true ('\n' :: rest) = inlineWhitespace suppress false ('\n' :: rest) :=
  rfl

/-- What is skipped, from outside a comment and from inside one. -/
theorem skipped_inlineWhitespace (suppress : Bool) (text : List Char) :
    Skipped suppress (text.take (inlineWhitespace suppress false text)) ∧
      ∃ gap, text.take (inlineWhitespace suppress true text) = text.takeWhile (· ≠ '\n') ++ gap ∧
        (∀ ch ∈ gap.head?, ch = '\n') ∧ Skipped suppress gap := by
  induction text with
  | nil => exact ⟨.nil, [], rfl, by simp, .nil⟩
  | cons ch rest ih =>
    obtain ⟨hfalse, gap, htake, hhead, hskip⟩ := ih
    have hout : Skipped suppress ((ch :: rest).take (inlineWhitespace suppress false (ch :: rest))) := by
      rw [inlineWhitespace_cons]
      split
      · next hblank =>
        rw [Nat.add_comm, List.take_succ_cons]
        exact .blank hblank hfalse
      split
      · next hline =>
        rw [Nat.add_comm, List.take_succ_cons, hline.1]
        exact .newline hline.2 hfalse
      split
      · next hhash =>
        rw [Nat.add_comm, List.take_succ_cons, htake, hhash.1]
        apply Skipped.comment _ _ hhead hskip
        · intro hmem
          have hall := List.all_eq_true.mp List.all_takeWhile _ hmem
          simp at hall
        · rw [hashOpensQuoted_line, ← hhash.1]
          simpa using hhash.2
      · exact .nil
    refine ⟨hout, ?_⟩
    by_cases hline : ch = '\n'
    · subst hline
      rw [inlineWhitespace_line]
      refine ⟨_, rfl, ?_, hout⟩
      intro c hc
      rw [List.head?_take] at hc
      split at hc
      · cases hc
      · exact (Option.some.inj hc).symm
    · rw [inlineWhitespace_comment hline, Nat.add_comm, List.take_succ_cons, htake]
      exact ⟨gap, by simp [hline], hhead, hskip⟩

theorem skips_inlineWhitespace (l : Lexer) :
    ∃ gap, Skipped (suppresses l.kinds) gap ∧ l.Reads gap l.skipInlineWhitespace := by
  refine ⟨_, ?_, .advance l _⟩
  rw [← l.suppressNewline_eq]
  exact (skipped_inlineWhitespace l.suppressNewline l.rest).1

/-! ## Tokens that open and close nothing -/

/-- One token read, the open delimiters left as they are. -/
structure Scanned (l : Lexer) (token : Token) (l' : Lexer) : Prop where
  proper : token.isEof = false
  neutral : ∀ delims, token.shift delims = some delims
  read : ∃ text, l.Reads text l' ∧ ReadAt l.kinds l.pos text token

theorem Scanned.leaf {l l' : Lexer} {token : Token} {text : List Char} (hreads : l.Reads text l')
    (hne : text ≠ []) (hleaf : token.isLeaf = true) (hproper : token.isEof = false)
    (hneutral : ∀ delims, token.shift delims = some delims)
    (hspelling : ∀ spelling ∈ token.spelling, text = spelling) : Scanned l token l' :=
  ⟨hproper, hneutral, text, hreads, .leaf hleaf (fun he => absurd he hne) hspelling⟩

theorem Word.shape_text (rules : PathRules) (word : List Char) : (Word.shape rules word).text = word := by
  unfold Word.shape
  split
  · next home hhome =>
    unfold TildePath.parse at hhome
    split at hhome
    · cases hhome
      rfl
    · split at hhome
      · cases hhome
        simp [Word.text]
      · cases hhome
    · cases hhome
  · split
    · exact String.toList_ofList
    · exact String.toList_ofList

/-! ## Which token begins here -/

def Arm.Begins (inExpr suppress : Bool) : Arm → List Char → Prop
  | .eof, text => text = []
  | .op o width, text => text.take width = o.spelling ∧ o.spelling ≠ []
  | .hashQuoted, text => text.head? = some '#' ∧ hashOpensQuoted text = true
  | .separator, text => text ≠ []
  | .opener kind, text => kind ≠ .expr ∧ text.head? = some kind.opener
  | .closer kind, text => kind ≠ .expr ∧ text.head? = some kind.close
  | .simple token, text => (∀ word, token ≠ .word word) ∧ ∃ ch rest, text = ch :: rest ∧
      token.isLeaf = true ∧ token.isEof = false ∧
      (∀ delims, token.shift delims = some delims) ∧ token.spelling = some [ch]
  | .ampersand, _ => True
  | .dollar, text => text.head? = some '$'
  | .quoted, text => text ≠ []
  | .doubleQuoted, text => text.head? = some '"'
  | .redirectGt, text => text ≠ []
  | .redirectLt, text => text ≠ []
  | .fdRedirect, text => ∃ ch rest, text = ch :: rest ∧ ch.isDigit = true
  | .spread, text => text.take 3 = ['.', '.', '.']
  | .tag, text => text.head? = some '`'
  | .numeral len, text => inExpr = true ∧ text ≠ [] ∧ 0 < len
  | .bare, text => ∃ ch rest, text = ch :: rest ∧ continuesBareWord ch = true ∧
      ¬(ch = ',' ∧ suppress = true) ∧
      ¬(inExpr = true ∧ ((operatorPrefix (ch :: rest)).isSome = true ∨ ch = '&'))
  | .control _, text => text ≠ []

theorem begins_ite {inExpr suppress : Bool} {text : List Char} {c : Prop} [Decidable c] {a b : Arm}
    (ha : c → a.Begins inExpr suppress text) (hb : ¬c → b.Begins inExpr suppress text) :
    (if c then a else b).Begins inExpr suppress text := by
  split
  · exact ha ‹_›
  · exact hb ‹_›

theorem operatorPrefix_spelling {text : List Char} {op : Operator} {width : ℕ}
    (h : operatorPrefix text = some (op, width)) :
    text.take width = op.spelling ∧ op.spelling ≠ [] := by
  unfold operatorPrefix at h
  split at h
  all_goals cases h
  all_goals exact ⟨rfl, by simp [Operator.spelling]⟩

theorem arm_begins (inExpr suppress : Bool) (text : List Char) :
    (arm inExpr suppress text).Begins inExpr suppress text := by
  cases text with
  | nil => rfl
  | cons ch rest =>
    have hsimple : ∀ {token : Token} {c : Char}, ch = c → (∀ word, token ≠ .word word) →
        token.isLeaf = true → token.isEof = false → (∀ delims, token.shift delims = some delims) →
        token.spelling = some [c] → (Arm.simple token).Begins inExpr suppress (ch :: rest) := by
      intro token c hch hword hleaf hproper hneutral hspelling
      exact ⟨hword, ch, rest, rfl, hleaf, hproper, hneutral, by rw [hspelling, hch]⟩
    unfold arm
    dsimp only
    split
    · next op width hop =>
      apply operatorPrefix_spelling
      split at hop
      · exact hop
      · cases hop
    next hop =>
    refine begins_ite (fun hhash => ⟨by simp [hhash.1], hhash.2⟩) fun _ => ?_
    refine begins_ite (fun _ => List.cons_ne_nil _ _) fun _ => ?_
    refine begins_ite (fun hch => ⟨by decide, by simp [hch, DelimKind.opener]⟩) fun _ => ?_
    refine begins_ite (fun hch => ⟨by decide, by simp [hch, DelimKind.close]⟩) fun _ => ?_
    refine begins_ite (fun hch => ⟨by decide, by simp [hch, DelimKind.opener]⟩) fun _ => ?_
    refine begins_ite (fun hch => ⟨by decide, by simp [hch, DelimKind.close]⟩) fun _ => ?_
    refine begins_ite (fun hch => hsimple hch (fun _ h => by cases h) rfl rfl (fun _ => rfl) rfl) fun _ => ?_
    refine begins_ite (fun hch => hsimple hch (fun _ h => by cases h) rfl rfl (fun _ => rfl) rfl) fun _ => ?_
    refine begins_ite (fun hch => hsimple hch (fun _ h => by cases h) rfl rfl (fun _ => rfl) rfl) fun _ => ?_
    refine begins_ite (fun _ => trivial) fun hamp => ?_
    refine begins_ite (fun hch => hsimple hch.1 (fun _ h => by cases h) rfl rfl (fun _ => rfl) rfl) fun hcomma => ?_
    refine begins_ite (fun hch => congrArg some hch) fun _ => ?_
    refine begins_ite (fun hch => hsimple hch (fun _ h => by cases h) rfl rfl (fun _ => rfl) rfl) fun _ => ?_
    refine begins_ite (fun hch => hsimple hch (fun _ h => by cases h) rfl rfl (fun _ => rfl) rfl) fun _ => ?_
    refine begins_ite (fun hch => hsimple hch (fun _ h => by cases h) rfl rfl (fun _ => rfl) rfl) fun _ => ?_
    refine begins_ite (fun _ => List.cons_ne_nil _ _) fun _ => ?_
    refine begins_ite (fun hch => congrArg some hch) fun _ => ?_
    refine begins_ite (fun _ => List.cons_ne_nil _ _) fun _ => ?_
    refine begins_ite (fun _ => List.cons_ne_nil _ _) fun _ => ?_
    refine begins_ite (fun hdigit => ⟨ch, rest, rfl, hdigit.2.1⟩) fun _ => ?_
    refine begins_ite (fun hdots => by
      show ch :: rest.take 2 = _
      rw [hdots.1, hdots.2]) fun _ => ?_
    refine begins_ite (fun hch => congrArg some hch) fun _ => ?_
    split
    · next len shape hnumeral =>
      split at hnumeral
      · next hexpr => exact ⟨hexpr, List.cons_ne_nil _ _, Numeral.longestPrefix_pos hnumeral⟩
      · cases hnumeral
    refine begins_ite (fun hbare => ?_) fun _ => List.cons_ne_nil _ _
    refine ⟨ch, rest, rfl, hbare, hcomma, ?_⟩
    intro hexpr
    rw [if_pos hexpr.1] at hop
    rcases hexpr.2 with hsome | hch
    · rw [hop] at hsome
      cases hsome
    · exact hamp hch

namespace Lex
open Run

theorem yields_advance {n : ℕ} {l : Lexer} {P : Unit → Lexer → Prop}
    (h : l.Reads (l.rest.take n) (l.advance n) → P () (l.advance n)) : Yields (advance n) l P :=
  yields_modify (h (.advance l n))

theorem yields_take {n : ℕ} {l : Lexer} {P : List Char → Lexer → Prop}
    (h : l.Reads (l.rest.take n) (l.advance n) → P (l.rest.take n) (l.advance n)) :
    Yields (take n) l P :=
  yields_act (h (.advance l n))

theorem yields_error {α : Type} {span : Span} {message : String} {l : Lexer}
    {P : α → Lexer → Prop} : Yields (error span message) l P := yields_fail

theorem yields_eat {ch : Char} {l : Lexer} {P : Bool → Lexer → Prop}
    (h : ∀ eaten text l', l.Reads text l' → text = (if eaten then [ch] else []) → P eaten l') :
    Yields (eat ch) l P := by
  apply yields_act
  by_cases hpeek : l.peek = some ch
  · obtain ⟨rest, hrest⟩ := List.head?_eq_some_iff.mp hpeek
    rw [if_pos hpeek]
    exact h true [ch] _ (.advance_one hrest) rfl
  · rw [if_neg hpeek]
    exact h false [] _ (.refl l) rfl

theorem yields_bumpSimple {token : Token} {l : Lexer} {ch : Char} {rest : List Char}
    (h : l.rest = ch :: rest) (hleaf : token.isLeaf = true) (hproper : token.isEof = false)
    (hneutral : ∀ delims, token.shift delims = some delims) (hspelling : token.spelling = some [ch]) :
    Yields (bumpSimple token) l (Scanned l) := by
  apply yields_bind
  apply yields_advance
  intro _
  apply yields_pure
  apply Scanned.leaf (.advance_one h) (by simp) hleaf hproper hneutral
  intro spelling hmem
  rw [hspelling] at hmem
  exact Option.some.inj hmem

/-! ### Separators -/

theorem yields_separatorLoop {fuel : ℕ} {hard : Bool} {l : Lexer} (hfuel : l.rest.length < fuel) :
    Yields (separatorLoop fuel hard) l fun _ l' => ∃ text, l.Reads text l' := by
  induction fuel generalizing l hard with
  | zero => omega
  | succ fuel ih =>
    unfold separatorLoop
    apply yields_bind
    apply yields_modify
    obtain ⟨gap, _, hgap⟩ := skips_inlineWhitespace l
    generalize l.skipInlineWhitespace = m at hgap ⊢
    have hlen := hgap.length_eq
    -- Either way one character is read before the loop goes round.
    have hround : ∀ {ch : Char} {hard : Bool}, m.peek = some ch →
        Yields (advance 1 >>= fun _ => separatorLoop fuel hard) m fun _ l' => ∃ text, l.Reads text l' := by
      intro ch hard hpeek
      obtain ⟨rest, hrest⟩ := List.head?_eq_some_iff.mp hpeek
      have hone := Reads.advance_one hrest
      have hone_len := hone.length_eq
      simp only [List.length_singleton] at hone_len
      apply yields_bind
      apply yields_modify
      apply (ih (by omega)).mono
      intro _ l' hread
      obtain ⟨text, htext⟩ := hread
      exact ⟨_, (hgap.trans hone).trans htext⟩
    apply yields_bind
    apply yields_get
    split
    · next hpeek => exact hround hpeek
    · split
      · next hpeek => exact hround hpeek
      · exact yields_pure ⟨gap, hgap⟩

theorem yields_scanSeparator {l : Lexer} {ch : Char} {rest : List Char} (h : l.rest = ch :: rest) :
    Yields scanSeparator l (Scanned l) := by
  have hone := Reads.advance_one h
  have hlen := hone.length_eq
  simp only [List.length_singleton] at hlen
  apply yields_bind
  apply yields_get
  apply yields_bind
  apply yields_modify
  apply yields_bind
  apply (yields_separatorLoop (by omega)).mono
  intro hard l' hread
  obtain ⟨text, htext⟩ := hread
  apply yields_pure
  have hreads := hone.trans htext
  cases hard
  · exact .leaf hreads (by simp) rfl rfl (fun _ => rfl) (by simp [Token.spelling])
  · exact .leaf hreads (by simp) rfl rfl (fun _ => rfl) (by simp [Token.spelling])

/-! ### Words -/

theorem bareFragment_pos {inExpr suppress : Bool} {ch : Char} {rest : List Char}
    (hbare : continuesBareWord ch = true) (hcomma : ¬(ch = ',' ∧ suppress = true))
    (hop : ¬(inExpr = true ∧ ((operatorPrefix (ch :: rest)).isSome = true ∨ ch = '&')))
    (hcolon : ¬(ch = ':' ∧ colonSplits rest = true)) :
    0 < bareFragment inExpr suppress (ch :: rest) := by
  unfold bareFragment
  rw [if_neg (by simp [hbare]), if_neg hcomma, if_neg hop, if_neg hcolon]
  omega

theorem yields_scanBareWord {rules : PathRules} {l : Lexer} {ch : Char} {rest : List Char}
    (h : l.rest = ch :: rest) (hbare : continuesBareWord ch = true)
    (hcomma : ¬(ch = ',' ∧ l.suppressNewline = true))
    (hop : ¬(l.inExpr = true ∧ ((operatorPrefix (ch :: rest)).isSome = true ∨ ch = '&'))) :
    Yields (scanBareWord rules) l (Scanned l) := by
  apply yields_bind
  apply yields_get
  split
  · next hcolon =>
    have hch : ch = ':' := by
      have hpeek := hcolon.1
      rw [Lexer.peek, h] at hpeek
      exact Option.some.inj hpeek
    exact yields_bumpSimple h rfl rfl (fun _ => rfl) (by rw [hch]; rfl)
  · next hcolon =>
    have hpos : 0 < l.bareFragment := by
      unfold Lexer.bareFragment
      rw [h]
      apply bareFragment_pos hbare hcomma hop
      simpa [Lexer.peek, h] using hcolon
    apply yields_bind
    apply yields_take
    intro hreads
    apply yields_pure
    apply Scanned.leaf hreads _ rfl rfl (fun _ => rfl)
    · intro spelling hmem
      rw [← Option.some.inj hmem, Word.shape_text]
    · rw [h, ← List.length_pos_iff, List.length_take]
      simp only [List.length_cons]
      omega

theorem yields_scanNumeralWord {len : ℕ} {l : Lexer} {ch : Char} {rest : List Char}
    (h : l.rest = ch :: rest) (hlen : 0 < len) : Yields (scanNumeralWord len) l (Scanned l) := by
  apply yields_bind
  apply yields_take
  intro hnumeral
  apply yields_bind
  apply yields_get
  apply yields_bind
  apply yields_take
  intro hglued
  apply yields_pure
  apply Scanned.leaf (hnumeral.trans hglued) _ rfl rfl (fun _ => rfl)
  · intro spelling hmem
    rw [← Option.some.inj hmem]
    exact String.toList_ofList.symm
  · rw [h]
    obtain ⟨n, rfl⟩ := Nat.exists_eq_add_of_le' hlen
    simp

theorem yields_scanTag {span : Span} {l : Lexer} {rest : List Char} (h : l.rest = '`' :: rest) :
    Yields (scanTag span) l (Scanned l) := by
  have hone := Reads.advance_one h
  apply yields_bind
  apply yields_modify
  apply yields_bind
  apply yields_get
  apply yields_bind
  apply yields_take
  intro hlabel
  apply yields_bind
  apply yields_get
  split
  · exact yields_error
  · apply yields_pure
    apply Scanned.leaf (hone.trans hlabel) (by simp) rfl rfl (fun _ => rfl)
    intro spelling hmem
    rw [← Option.some.inj hmem, String.toList_ofList]
    rfl

/-! ### Raw strings -/

theorem yields_unclosedString {eof : EofPolicy} {opened : Span} {form : StringForm} {l : Lexer}
    {P : Unit → Lexer → Prop}
    (h : ∀ l', l'.cursor = l.cursor → l'.delims = l.delims → P () l') :
    Yields (unclosedString eof opened form) l P := by
  cases eof with
  | requireClosed => exact yields_fail
  | allowOpen => exact yields_modify (h _ rfl rfl)

theorem yields_scanQuoted {eof : EofPolicy} {span : Span} {level : ℕ} {l : Lexer} {ch : Char}
    {rest : List Char} (h : l.rest = ch :: rest) :
    Yields (scanQuoted eof span level) l fun token l' =>
      (∃ text, token = .singleQuoted text) ∧ ∃ text, text ≠ [] ∧ l.Reads text l' := by
  have hone := Reads.advance_one h
  apply yields_bind
  apply yields_modify
  apply yields_bind
  apply yields_get
  cases rawBody level [] (l.advance 1).rest with
  | closed body =>
    apply yields_bind
    apply yields_advance
    intro hbody
    exact yields_pure ⟨⟨_, rfl⟩, _, by simp, hone.trans hbody⟩
  | opener body => exact yields_fail
  | unclosed body =>
    apply yields_bind
    apply yields_advance
    intro hbody
    apply yields_bind
    apply yields_unclosedString
    intro l' hcursor hdelims
    exact yields_pure ⟨⟨_, rfl⟩, _, by simp, (hone.trans hbody).of_eq hcursor hdelims⟩

theorem scanned_singleQuoted {l l' : Lexer} {token : Token} {text : List Char}
    (hreads : l.Reads text l') (hne : text ≠ []) (h : ∃ text, token = .singleQuoted text) :
    Scanned l token l' := by
  obtain ⟨_, rfl⟩ := h
  exact .leaf hreads hne rfl rfl (fun _ => rfl) (by simp [Token.spelling])

/-! ### Escapes -/

theorem yields_takeHex {max : ℕ} {l : Lexer} {P : List Char → Lexer → Prop}
    (h : ∀ digits l', l.Reads digits l' → P digits l') : Yields (takeHex max) l P := by
  apply yields_bind
  apply yields_get
  exact yields_take (h _ _)

/-- An escape reads on; where it stands for no character it is a line continuation. -/
structure Escaped (l : Lexer) (decoded : Option Char) (l' : Lexer) : Prop where
  read : ∃ text, l.Reads text l' ∧ (decoded = none → Continuation ('\\' :: text))

theorem yields_scanHexEscape {escape : Span} {l : Lexer} :
    Yields (scanHexEscape escape) l fun decoded l' => (∃ ch, decoded = some ch) ∧
      ∃ text, l.Reads text l' := by
  apply yields_bind
  apply yields_takeHex
  intro digits l' hdigits
  apply yields_bind
  apply yields_get
  split
  · exact yields_error
  split
  · exact yields_error
  · exact yields_pure ⟨⟨_, rfl⟩, _, hdigits⟩

theorem yields_scanUnicodeEscape {escape : Span} {l : Lexer} :
    Yields (scanUnicodeEscape escape) l fun decoded l' => (∃ ch, decoded = some ch) ∧
      ∃ text, l.Reads text l' := by
  apply yields_bind
  apply yields_eat
  intro opened text m hopen _
  apply yields_bind
  apply yields_get
  split
  · exact yields_error
  apply yields_bind
  apply yields_takeHex
  intro digits m' hdigits
  apply yields_bind
  have hclose : Yields (if digits = [] then pure false else eat '}') m' fun _ l' =>
      ∃ text, l.Reads text l' := by
    split
    · exact yields_pure ⟨_, hopen.trans hdigits⟩
    · apply yields_eat
      intro _ text l' hbrace _
      exact ⟨_, (hopen.trans hdigits).trans hbrace⟩
  apply hclose.mono
  intro closed l' hread
  apply yields_bind
  apply yields_get
  split
  · exact yields_error
  split
  · exact yields_pure ⟨⟨_, rfl⟩, hread⟩
  · exact yields_error

theorem yields_scanDoubleQuotedEscape {eof : EofPolicy} {escape opened : Span} {l : Lexer} :
    Yields (scanDoubleQuotedEscape eof escape opened) l (Escaped l) := by
  apply yields_bind
  apply yields_get
  split
  · apply yields_bind
    apply yields_unclosedString
    intro l' hcursor hdelims
    exact yields_pure ⟨[], .of_eq (.refl l) hcursor hdelims, fun _ => .inr (.inr (.inr rfl))⟩
  · next ch rest hrest =>
    have hone := Reads.advance_one hrest
    have hdecoded : ∀ {decoded : Option Char}, (∃ ch, decoded = some ch) →
        ∀ {text : List Char} {l' : Lexer}, (l.advance 1).Reads text l' → Escaped l decoded l' := by
      intro decoded hsome text l' hreads
      obtain ⟨_, rfl⟩ := hsome
      exact ⟨_, hone.trans hreads, fun h => by cases h⟩
    have hchar : ∀ ch : Char, Yields (pure (some ch) : Lex (Option Char)) (l.advance 1) (Escaped l) :=
      fun ch => yields_pure (hdecoded ⟨ch, rfl⟩ (.refl _))
    apply yields_bind
    apply yields_modify
    apply yields_bind
    apply yields_get
    refine yields_ite (fun _ => hchar _) fun _ => ?_
    refine yields_ite (fun _ => hchar _) fun _ => ?_
    refine yields_ite (fun _ => hchar _) fun _ => ?_
    refine yields_ite (fun _ => hchar _) fun _ => ?_
    refine yields_ite (fun _ => hchar _) fun _ => ?_
    refine yields_ite (fun _ => hchar _) fun _ => ?_
    refine yields_ite (fun hline => ?_) fun _ => ?_
    · exact yields_pure ⟨_, hone, fun _ => by rw [hline]; exact .inl rfl⟩
    refine yields_ite (fun hline => ?_) fun _ => ?_
    · apply yields_bind
      apply yields_eat
      intro eaten text l' hreads htext
      refine yields_pure ⟨_, hone.trans hreads, fun _ => ?_⟩
      rw [hline, htext]
      cases eaten
      · exact .inr (.inr (.inl rfl))
      · exact .inr (.inl rfl)
    refine yields_ite (fun _ => ?_) fun _ => ?_
    · apply yields_scanHexEscape.mono
      intro decoded l' h
      obtain ⟨hsome, text, hreads⟩ := h
      exact hdecoded hsome hreads
    refine yields_ite (fun _ => ?_) fun _ => ?_
    · apply yields_scanUnicodeEscape.mono
      intro decoded l' h
      obtain ⟨hsome, text, hreads⟩ := h
      exact hdecoded hsome hreads
    exact yields_ite (fun _ => yields_error) fun _ => yields_error

/-! ### Redirects -/

/-- A redirect's token, over what was read from its first character on. -/
structure Redirected (l : Lexer) (token : Token) (l' : Lexer) : Prop where
  redirect : (∃ op, token = .redirect op) ∨ token = .stderrToStdout
  read : ∃ text, l.Reads (l.rest.take 1 ++ text) l'

theorem Redirected.scanned {l m l' : Lexer} {token : Token} {text : List Char}
    (h : Redirected m token l') (hreads : l.Reads text m) (hne : text ≠ [] ∨ m.rest ≠ []) :
    Scanned l token l' := by
  obtain ⟨htoken, text', hreads'⟩ := h
  have hne' : text ++ (m.rest.take 1 ++ text') ≠ [] := by
    rcases hne with hne | hne
    · simp [hne]
    · simp [hne]
  rcases htoken with ⟨op, rfl⟩ | rfl
  · exact .leaf (hreads.trans hreads') hne' rfl rfl (fun _ => rfl) (by simp [Token.spelling])
  · exact .leaf (hreads.trans hreads') hne' rfl rfl (fun _ => rfl) (by simp [Token.spelling])

theorem of_ite_ok {ε α : Type} {c p : Prop} [Decidable c] {x y : Except ε α} {a : α}
    (h : (if c then x else y) = .ok a) (hx : x = .ok a → p) (hy : y = .ok a → p) : p := by
  split at h
  · exact hx h
  · exact hy h

theorem redirectToken_redirect {fd : Option (List Char)} {op : RedirectOp} {token : Token}
    (h : redirectToken fd op = .ok token) : ∃ op, token = .redirect op := by
  cases fd with
  | none => exact ⟨_, (Except.ok.inj h).symm⟩
  | some digits =>
    cases op with
    | stdout mode =>
      refine of_ite_ok h (fun h => ⟨_, (Except.ok.inj h).symm⟩) fun h => ?_
      refine of_ite_ok h (fun h => by cases h) fun h => ?_
      exact of_ite_ok h (fun h => by cases h) fun h => by cases h
    | read =>
      refine of_ite_ok h (fun h => by cases h) fun h => ?_
      exact of_ite_ok h (fun h => by cases h) fun h => by cases h
    | hereString =>
      refine of_ite_ok h (fun h => by cases h) fun h => ?_
      exact of_ite_ok h (fun h => by cases h) fun h => by cases h
    | stderr mode => exact of_ite_ok h (fun h => by cases h) fun h => by cases h

theorem dupToken_redirect {fd : Option (List Char)} {target : List Char} {token : Token}
    (h : dupToken fd target = .ok token) : token = .stderrToStdout := by
  refine of_ite_ok h (fun h => by cases h) fun h => ?_
  refine of_ite_ok h (fun h => (Except.ok.inj h).symm) fun h => ?_
  refine of_ite_ok h (fun h => by cases h) fun h => ?_
  refine of_ite_ok h (fun h => by cases h) fun h => ?_
  refine of_ite_ok h (fun h => by cases h) fun h => ?_
  exact of_ite_ok h (fun h => by cases h) fun h => by cases h

theorem yields_redirect {span : Span} {token : Except String Token} {l m : Lexer}
    {text : List Char} (hreads : l.Reads (l.rest.take 1 ++ text) m)
    (h : ∀ t, token = .ok t → (∃ op, t = .redirect op) ∨ t = .stderrToStdout) :
    Yields (redirect span token) m (Redirected l) := by
  apply yields_bind
  apply yields_get
  cases token with
  | error why => exact yields_error
  | ok token => exact yields_pure ⟨h token rfl, text, hreads⟩

theorem yields_scanRedirectGt {fd : Option (List Char)} {span : Span} {l : Lexer} :
    Yields (scanRedirectGt fd span) l (Redirected l) := by
  have hone := Reads.advance l 1
  have hredirect : ∀ {op : RedirectOp} {text : List Char} {m : Lexer},
      l.Reads (l.rest.take 1 ++ text) m →
      Yields (redirect span (redirectToken fd op)) m (Redirected l) :=
    fun hreads => yields_redirect hreads fun _ h => .inl (redirectToken_redirect h)
  apply yields_bind
  apply yields_modify
  apply yields_bind
  apply yields_get
  split
  · apply yields_bind
    apply yields_advance
    exact fun hreads => hredirect (hone.trans hreads)
  split
  · apply yields_bind
    apply yields_advance
    exact fun hreads => hredirect (hone.trans hreads)
  split
  · apply yields_bind
    apply yields_advance
    intro hamp
    apply yields_bind
    apply yields_get
    apply yields_bind
    apply yields_take
    intro hdigits
    have hreads := hone.trans (hamp.trans hdigits)
    split
    · exact yields_redirect hreads fun _ h => by cases h
    · exact yields_redirect hreads fun _ h => .inr (dupToken_redirect h)
  · have hbase : l.Reads (l.rest.take 1 ++ []) (l.advance 1) := by simpa using hone
    exact hredirect hbase

theorem yields_scanRedirectLt {fd : Option (List Char)} {span : Span} {l : Lexer} :
    Yields (scanRedirectLt fd span) l (Redirected l) := by
  have hone := Reads.advance l 1
  have hredirect : ∀ {op : RedirectOp} {text : List Char} {m : Lexer},
      l.Reads (l.rest.take 1 ++ text) m →
      Yields (redirect span (redirectToken fd op)) m (Redirected l) :=
    fun hreads => yields_redirect hreads fun _ h => .inl (redirectToken_redirect h)
  apply yields_bind
  apply yields_modify
  apply yields_bind
  apply yields_get
  split
  · apply yields_bind
    apply yields_advance
    intro htwo
    apply yields_bind
    apply yields_get
    split
    · apply yields_bind
      apply yields_advance
      exact fun hreads => yields_redirect (hone.trans (htwo.trans hreads)) fun _ h => by cases h
    split
    · exact yields_redirect (hone.trans htwo) fun _ h => by cases h
    · exact hredirect (hone.trans htwo)
  · have hbase : l.Reads (l.rest.take 1 ++ []) (l.advance 1) := by simpa using hone
    exact hredirect hbase

theorem yields_scanFdRedirect {span : Span} {l : Lexer} {ch : Char} {rest : List Char}
    (h : l.rest = ch :: rest) (hdigit : ch.isDigit = true) :
    Yields (scanFdRedirect span) l (Scanned l) := by
  apply yields_bind
  apply yields_get
  apply yields_bind
  apply yields_take
  intro hdigits
  have hne : l.rest.take (l.rest.takeWhile Char.isDigit).length ≠ [] := by
    rw [h, List.takeWhile_cons_of_pos hdigit]
    simp
  apply yields_bind
  apply yields_get
  split
  · apply yields_scanRedirectGt.mono
    exact fun _ _ hred => hred.scanned hdigits (.inl hne)
  · apply yields_scanRedirectLt.mono
    exact fun _ _ hred => hred.scanned hdigits (.inl hne)

end Lex

end Ral.Syntax
