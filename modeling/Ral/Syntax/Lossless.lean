import Ral.Syntax.Scan

/-! # The lexer is total and lossless

A group is entered below the nesting limit only, so the lexer returns from every group, and each
loop reads on until the source ends. What it returns lies on what was read.
-/

namespace Ral.Syntax
open Text (size size_append)
open Lexer (Reads)
open Run

/-! ## Building streams -/

namespace Stream
variable {delims mid delims' : List DelimKind} {pos start stop : ℕ} {text text' gap body : List Char}
  {tokens tokens' : List Lexeme} {token : Token}

theorem push (h : Stream delims pos text tokens mid) (hskip : Skipped (suppresses mid) gap)
    (hread : ReadAt mid start body token) (hshift : token.shift mid = some delims')
    (hstart : start = pos + size (text ++ gap)) (hstop : stop = pos + size (text ++ gap ++ body)) :
    Stream delims pos (text ++ gap ++ body) (tokens ++ [.mk token ⟨start, stop⟩]) delims' := by
  subst hstart hstop
  exact .snoc h hskip hread hshift

theorem one (hread : ReadAt delims pos body token) (hshift : token.shift delims = some delims')
    (hstop : stop = pos + size body) : Stream delims pos body [.mk token ⟨pos, stop⟩] delims' :=
  push .nil .nil hread hshift rfl hstop

theorem append (h : Stream delims pos text tokens mid)
    (h' : Stream mid (pos + size text) text' tokens' delims') :
    Stream delims pos (text ++ text') (tokens ++ tokens') delims' := by
  induction h' using Stream.induct with
  | nil => simpa using h
  | snoc _ hskip hread hshift ih =>
    have hpush := ih.push hskip hread hshift (by simp only [size_append]; omega) rfl
    simp only [List.append_assoc, size_append, Nat.add_assoc] at hpush ⊢
    exact hpush

end Stream

/-! ## Open delimiters -/

theorem shift_suffix {token : Token} {kind : DelimKind} {outer delims delims' : List DelimKind}
    (hsuffix : kind :: outer <:+ delims) (hshift : token.shift delims = some delims') :
    kind :: outer <:+ delims' ∨
      delims = kind :: outer ∧ delims' = outer ∧ token.spelling = some [kind.close] := by
  have hpop : ∀ {k : DelimKind}, delims = k :: delims' → kind :: outer <:+ delims' ∨
      delims = kind :: outer ∧ delims' = outer ∧ k = kind := by
    intro k hk
    rw [hk] at hsuffix
    rcases List.suffix_cons_iff.mp hsuffix with heq | hsuffix
    · right
      simp only [List.cons.injEq] at heq
      rw [hk, heq.1, heq.2]
      exact ⟨rfl, rfl, rfl⟩
    · exact .inl hsuffix
  unfold Token.shift at hshift
  split at hshift
  · cases hshift
    exact .inl (hsuffix.trans (List.suffix_cons _ _))
  · cases hshift
    exact .inl (hsuffix.trans (List.suffix_cons _ _))
  · split at hshift
    · next k rest hclose =>
      cases hshift
      rcases hpop rfl with h | ⟨hdelims, hdelims', hkind⟩
      · exact .inl h
      · right
        rw [← hkind, hclose]
        exact ⟨by rw [hkind, hdelims'], hdelims', rfl⟩
    · cases hshift
  · split at hshift
    · next k rest hclose =>
      cases hshift
      rcases hpop rfl with h | ⟨hdelims, hdelims', hkind⟩
      · exact .inl h
      · right
        rw [← hkind, hclose]
        exact ⟨by rw [hkind, hdelims'], hdelims', rfl⟩
    · cases hshift
  · cases hshift
    exact .inl hsuffix

namespace Lex

/-! ## Groups and splices -/

/-- A group read from after its opener. Unclosed, it ends where the source does. -/
structure GroupRead (l : Lexer) (kind : DelimKind) (group : List Lexeme × Option Span)
    (l' : Lexer) : Prop where
  shallow : l.delims.length < nestingDepthLimit
  read : ∃ inner gap close delims', l.Reads (inner ++ gap ++ close) l' ∧
    Stream (kind :: l.kinds) l.pos inner group.1 delims' ∧ Skipped (suppresses delims') gap ∧
    (close = [kind.close] ∧ delims' = kind :: l.kinds ∧
        group.2 = some ⟨l.pos + size (inner ++ gap), l'.pos⟩ ∨
      close = [] ∧ group.2 = none ∧ l'.rest = [])

def GroupsRead (nesting : ℕ) (group : Group) : Prop :=
  ∀ l opener kind, nestingDepthLimit ≤ nesting + l.delims.length →
    Yields (group opener kind) l (GroupRead l kind)

/-- The tokens of a splice, as they lie on its text. -/
structure SpliceRead (l : Lexer) (tokens : List Lexeme) (l' : Lexer) : Prop where
  read : ∃ inner gap delims', l.Reads (inner ++ gap) l' ∧ inner ≠ [] ∧
    Stream l.kinds l.pos inner tokens delims' ∧ Skipped (suppresses delims') gap ∧
    (gap = [] ∧ delims' = l.kinds ∨ l'.rest = [])

theorem delims_length {l l' : Lexer} {text : List Char} (h : l.Reads text l') :
    l'.delims.length = l.delims.length := by
  have hkinds := congrArg List.length h.kinds
  simpa only [Lexer.kinds, List.length_map] using hkinds

theorem yields_bumpSpanned {l : Lexer} {ch : Char} {rest : List Char} {P : Span → Lexer → Prop}
    (h : l.rest = ch :: rest) (hp : P ⟨l.pos, l.pos + ch.utf8Size⟩ (l.advance 1)) :
    Yields bumpSpanned l P := by
  apply yields_act
  have hpos := (Reads.advance_one h).pos_eq
  rw [Text.size_cons, Text.size_nil, Nat.add_zero] at hpos
  rw [Lexer.finish, hpos]
  exact hp

theorem isPrefix_identPrefix (text : List Char) : identPrefix text <+: text := by
  unfold identPrefix
  split
  · exact List.takeWhile_prefix _
  · exact List.nil_prefix

theorem isPrefix_derefIdent (text : List Char) : derefIdent text <+: text := by
  apply List.IsPrefix.trans _ (isPrefix_identPrefix text)
  unfold derefIdent
  rw [← List.reverse_suffix, List.reverse_reverse]
  exact List.dropWhile_suffix _

theorem take_of_isPrefix {text front : List Char} (h : front <+: text) : text.take front.length = front :=
  (List.prefix_iff_eq_take.mp h).symm

theorem yields_scanDelimitedName {l m : Lexer} {rest : List Char} (hdollar : l.Reads ['$'] m)
    (h : m.rest = '(' :: rest) : Yields scanDelimitedName m (Scanned l) := by
  have hparen := hdollar.trans (Reads.advance_one h)
  apply yields_bind
  apply yields_get
  apply yields_bind
  apply yields_modify
  apply yields_bind
  apply yields_get
  apply yields_bind
  apply yields_take
  intro hname
  rw [take_of_isPrefix (isPrefix_identPrefix _)] at hname ⊢
  apply yields_bind
  apply yields_get
  split
  · exact yields_fail
  split
  · exact yields_error
  split
  · next hclose =>
    obtain ⟨rest, hrest⟩ := List.head?_eq_some_iff.mp hclose
    apply yields_bind
    apply yields_modify
    apply yields_pure
    apply Scanned.leaf ((hparen.trans hname).trans (Reads.advance_one hrest)) (by simp) rfl rfl
      (fun _ => rfl)
    intro spelling hmem
    rw [← Option.some.inj hmem, String.toList_ofList]
    rfl
  split
  · exact yields_error
  · exact yields_error

section Nested
variable {eof : EofPolicy} {nesting : ℕ} {group : Group}

/-- A `$` with nothing to it is not read further. -/
theorem yields_scanDollar (hgroup : GroupsRead nesting group) {l m : Lexer}
    (hdollar : l.Reads ['$'] m) (hnest : nestingDepthLimit ≤ nesting + l.delims.length) :
    Yields (scanDollar group) m fun token l' => match token with
      | some token => Scanned l token l'
      | none => l' = m ∧ (m.rest.head?.any fun c => isIdentStart c || c ∈ ['(', '[', '{']) = false := by
  apply yields_bind
  apply yields_get
  split
  · apply yields_bind
    apply yields_take
    intro hname
    rw [take_of_isPrefix (isPrefix_derefIdent _)] at hname ⊢
    apply yields_pure
    apply Scanned.leaf (hdollar.trans hname) (by simp) rfl rfl (fun _ => rfl)
    intro spelling hmem
    rw [← Option.some.inj hmem, String.toList_ofList]
    rfl
  split
  · exact yields_error
  split
  · next hpeek =>
    obtain ⟨rest, hrest⟩ := List.head?_eq_some_iff.mp hpeek
    apply yields_bind
    apply (yields_scanDelimitedName hdollar hrest).mono
    intro token l' h
    exact yields_pure h
  split
  · next hpeek =>
    obtain ⟨rest, hrest⟩ := List.head?_eq_some_iff.mp hpeek
    have hopen := hdollar.trans (Reads.advance_one hrest)
    apply yields_bind
    apply yields_bumpSpanned hrest
    apply yields_bind
    apply (hgroup _ _ _ (by rw [delims_length hopen]; exact hnest)).mono
    intro r l' h
    obtain ⟨hshallow, inner, gap, close, delims', hreads, hstream, hskip, hend⟩ := h
    apply yields_pure
    refine ⟨rfl, fun _ => rfl, _, hopen.trans hreads, ?_⟩
    rw [hopen.kinds, hopen.pos_eq] at hstream
    rw [delims_length hopen] at hshallow
    have hread : ReadAt l.kinds l.pos ('$' :: '[' :: inner ++ gap ++ close) (.expr r.1) := by
      apply ReadAt.expr _ hstream hskip
      · rcases hend with ⟨hclose, hdelims, _⟩ | ⟨hclose, _⟩
        · rw [hopen.kinds] at hdelims
          exact .inl ⟨hclose, hdelims⟩
        · exact .inr hclose
      · simpa [Lexer.kinds] using hshallow
    simpa using hread
  · next hident hbrace hparen hbracket =>
    apply yields_pure
    refine ⟨rfl, ?_⟩
    cases hrest : m.rest with
    | nil => rfl
    | cons c rest =>
      simp only [Lexer.peek, hrest, List.head?_cons, Option.any_some, Option.some.injEq] at *
      simp [hident, hbrace, hparen, hbracket]

theorem yields_scanSpliceGroup (hgroup : GroupsRead nesting group) {l : Lexer} {kind : DelimKind}
    {rest : List Char} (hkind : kind ≠ .expr) (h : l.rest = kind.opener :: rest)
    (hnest : nestingDepthLimit ≤ nesting + l.delims.length) :
    Yields (scanSpliceGroup group kind) l (SpliceRead l) := by
  have hopen := Reads.advance_one h
  have hsize : kind.opener.utf8Size = 1 ∧ kind.close.utf8Size = 1 := by cases kind <;> exact ⟨rfl, rfl⟩
  have hleft : Stream l.kinds l.pos [kind.opener] [.mk kind.left ⟨l.pos, l.pos + kind.opener.utf8Size⟩]
      (kind :: l.kinds) := by
    apply Stream.one _ _ (by simp)
    · apply ReadAt.leaf
      · cases kind <;> rfl
      · simp
      · cases kind <;> simp [DelimKind.left, DelimKind.opener, Token.spelling]
    · cases kind with
      | brace => rfl
      | bracket => rfl
      | expr => exact absurd rfl hkind
  apply yields_bind
  apply yields_bumpSpanned h
  apply yields_bind
  apply (hgroup _ _ _ (by rw [delims_length hopen]; exact hnest)).mono
  intro r l' hgroupRead
  obtain ⟨_, inner, gap, close, delims', hreads, hstream, hskip, hend⟩ := hgroupRead
  rw [hopen.kinds, hopen.pos_eq] at hstream
  have hbody := hleft.append hstream
  have hall := hopen.trans hreads
  apply yields_pure
  rcases hend with ⟨rfl, hdelims, hspan⟩ | ⟨rfl, hspan, hrest⟩
  · refine ⟨[kind.opener] ++ inner ++ gap ++ [kind.close], [], l.kinds, by simpa using hall, by simp, ?_,
      .nil, .inl ⟨rfl, rfl⟩⟩
    rw [hopen.kinds] at hdelims
    subst hdelims
    rw [hspan]
    simp only [Option.map_some, Option.toList_some]
    rw [← List.cons_append]
    apply hbody.push hskip
    · apply ReadAt.leaf
      · cases kind <;> rfl
      · simp
      · cases kind <;> simp [DelimKind.right, DelimKind.close, Token.spelling]
    · cases kind <;> rfl
    · rw [hopen.pos_eq]
      simp only [size_append]
      omega
    · rw [hall.pos_eq]
      simp only [size_append]
      omega
  · refine ⟨[kind.opener] ++ inner, gap, delims', by simpa using hall, by simp, ?_, hskip, .inr hrest⟩
    rw [hspan]
    simpa using hbody

theorem SpliceRead.append {l m l' : Lexer} {tokens tokens' : List Lexeme} (h : SpliceRead l tokens m)
    (h' : SpliceRead m tokens' l') (hrest : m.rest ≠ []) : SpliceRead l (tokens ++ tokens') l' := by
  obtain ⟨inner, gap, delims', hreads, hne, hstream, _, hend⟩ := h
  obtain ⟨inner', gap', delims'', hreads', _, hstream', hskip', hend'⟩ := h'
  rcases hend with ⟨rfl, hdelims⟩ | hend
  · rw [List.append_nil] at hreads
    rw [hreads.kinds, hreads.pos_eq] at hstream'
    rw [hdelims] at hstream
    rw [hreads.kinds] at hend'
    exact ⟨inner ++ inner', gap', delims'', by simpa using hreads.trans hreads', by simp [hne],
      hstream.append hstream', hskip', hend'⟩
  · exact absurd hend hrest

theorem yields_keyGroups (hgroup : GroupsRead nesting group) {fuel : ℕ} {l m : Lexer}
    {tokens : List Lexeme} (hread : SpliceRead l tokens m) (hfuel : m.rest.length < fuel)
    (hnest : nestingDepthLimit ≤ nesting + l.delims.length) :
    Yields (keyGroups group fuel tokens) m (SpliceRead l) := by
  induction fuel generalizing m tokens with
  | zero => omega
  | succ fuel ih =>
    apply yields_bind
    apply yields_get
    split
    · next hpeek =>
      obtain ⟨rest, hrest⟩ := List.head?_eq_some_iff.mp hpeek
      have hmlen : m.delims.length = l.delims.length := by
        obtain ⟨_, _, _, hreads, _⟩ := hread
        exact delims_length hreads
      apply yields_bind
      apply (yields_scanSpliceGroup hgroup (by decide) hrest (by rw [hmlen]; exact hnest)).mono
      intro key l' hkey
      apply ih (hread.append hkey (by simp [hrest]))
      obtain ⟨inner, gap, _, hreads, hne, _⟩ := hkey
      have hlen := hreads.length_eq
      have hpos := List.length_pos_of_ne_nil hne
      rw [List.length_append] at hlen
      omega
    · exact yields_pure hread

theorem SpliceRead.of_scanned {l l' : Lexer} {token : Token} (h : Scanned l token l') :
    SpliceRead l [.mk token ⟨l.pos, l'.pos⟩] l' := by
  obtain ⟨hproper, hneutral, text, hreads, hread⟩ := h
  refine ⟨text, [], l.kinds, by simpa using hreads, ?_, ?_, .nil, .inl ⟨rfl, rfl⟩⟩
  · intro he
    have heof := hread.nonempty he
    rw [hproper] at heof
    cases heof
  · exact .one hread (hneutral _) hreads.pos_eq

theorem yields_spliceHead (hgroup : GroupsRead nesting group) {l : Lexer} {ch : Char}
    {rest : List Char} (h : l.rest = ch :: rest) (hch : ch = '$' ∨ ch = '!')
    (hnest : nestingDepthLimit ≤ nesting + l.delims.length) :
    Yields (spliceHead group) l fun head l' => match head with
      | some tokens => SpliceRead l tokens l'
      | none => l.Reads [ch] l' := by
  have hone := Reads.advance_one h
  apply yields_bind
  apply yields_get
  apply yields_bind
  apply yields_modify
  split
  · next hpeek =>
    have hbang : ch = '!' := by
      rw [Lexer.peek, h] at hpeek
      exact Option.some.inj hpeek
    subst hbang
    have hscanned : Scanned l .bang (l.advance 1) :=
      .leaf hone (by simp) rfl rfl (fun _ => rfl) (by simp [Token.spelling])
    apply yields_bind
    apply yields_get
    split
    · next hopen =>
      obtain ⟨rest', hrest'⟩ := List.head?_eq_some_iff.mp hopen
      apply yields_bind
      apply (yields_scanSpliceGroup hgroup (by decide) hrest'
        (by rw [delims_length hone]; exact hnest)).mono
      intro body l' hbody
      exact yields_pure ((SpliceRead.of_scanned hscanned).append hbody (by simp [hrest']))
    split
    · next hdollar =>
      obtain ⟨rest', hrest'⟩ := List.head?_eq_some_iff.mp hdollar.1
      have htwo := Reads.advance_one hrest'
      apply yields_bind
      apply yields_modify
      apply yields_bind
      apply (yields_scanDollar hgroup htwo (by rw [delims_length hone]; exact hnest)).mono
      intro token l' htoken
      apply yields_bind
      apply yields_get
      cases token with
      | none =>
        -- The guard saw a form that `scan_dollar` reads.
        have hno := htoken.2
        have hyes := hdollar.2
        rw [hrest', List.tail_cons] at hyes
        rw [Lexer.rest_advance, hrest', List.drop_one, List.tail_cons, hyes] at hno
        cases hno
      | some token => exact yields_pure ((SpliceRead.of_scanned hscanned).append (.of_scanned htoken) (by simp [hrest']))
    · exact yields_pure hone
  · next hpeek =>
    have hdollar : ch = '$' := by
      rcases hch with hch | hch
      · exact hch
      · rw [Lexer.peek, h, hch] at hpeek
        exact absurd rfl hpeek
    subst hdollar
    apply yields_bind
    apply (yields_scanDollar hgroup hone hnest).mono
    intro token l' htoken
    apply yields_bind
    apply yields_get
    apply yields_pure
    cases token with
    | none =>
      rw [htoken.1]
      exact hone
    | some token => exact .of_scanned htoken

theorem yields_scanSplice (hgroup : GroupsRead nesting group) {l : Lexer} {ch : Char}
    {rest : List Char} (h : l.rest = ch :: rest) (hch : ch = '$' ∨ ch = '!')
    (hnest : nestingDepthLimit ≤ nesting + l.delims.length) :
    Yields (scanSplice group) l fun splice l' => match splice with
      | some tokens => SpliceRead l tokens l'
      | none => l.Reads [ch] l' := by
  apply yields_bind
  apply (yields_spliceHead hgroup h hch hnest).mono
  intro head l' hhead
  cases head with
  | none => exact yields_pure hhead
  | some tokens =>
    dsimp only
    split
    · exact yields_pure hhead
    · apply yields_bind
      apply yields_get
      apply yields_bind
      apply (yields_keyGroups hgroup hhead (Nat.lt_succ_self _) hnest).mono
      intro tokens l'' htokens
      exact yields_pure htokens

/-! ## Double quotes -/

/-- The inner text of a string read so far: its parts, and the literal run after them. -/
structure StringRead (l : Lexer) (m : Lexer) (parts : List (Span × StringPart)) (run : LiteralRun) :
    Prop where
  read : ∃ text tail, l.Reads (text ++ tail) m ∧ Parts l.kinds l.pos text parts ∧
    match run with
    | none => tail = []
    | some (start, _) => tail ≠ [] ∧ start = l.pos + size text

theorem StringRead.push {l m l' : Lexer} {parts : List (Span × StringPart)} {run : LiteralRun}
    {text : List Char} (h : StringRead l m parts run) (hreads : m.Reads text l') (hne : text ≠ [])
    (ch : Char) : StringRead l l' parts (run.push m.pos ch) := by
  obtain ⟨inner, tail, hinner, hparts, hrun⟩ := h
  refine ⟨inner, tail ++ text, by simpa using hinner.trans hreads, hparts, ?_⟩
  cases run with
  | none =>
    dsimp only at hrun
    subst hrun
    refine ⟨by simpa using hne, ?_⟩
    rw [hinner.pos_eq, List.append_nil]
  | some run => exact ⟨by simp [hrun.1], hrun.2⟩

theorem StringRead.continued {l m l' : Lexer} {parts : List (Span × StringPart)} {run : LiteralRun}
    {text : List Char} (h : StringRead l m parts run) (hreads : m.Reads text l')
    (hline : Continuation text) : StringRead l l' parts run := by
  obtain ⟨inner, tail, hinner, hparts, hrun⟩ := h
  cases run with
  | none =>
    dsimp only at hrun
    subst hrun
    rw [List.append_nil] at hinner
    exact ⟨inner ++ text, [], by simpa using hinner.trans hreads, .continuation hparts hline, rfl⟩
  | some run =>
    exact ⟨inner, tail ++ text, by simpa using hinner.trans hreads, hparts, by simp [hrun.1], hrun.2⟩

theorem StringRead.flush {l m : Lexer} {parts : List (Span × StringPart)} {run : LiteralRun}
    (h : StringRead l m parts run) :
    ∃ inner, l.Reads inner m ∧ Parts l.kinds l.pos inner (run.flush parts m.pos) := by
  obtain ⟨inner, tail, hinner, hparts, hrun⟩ := h
  refine ⟨inner ++ tail, hinner, ?_⟩
  cases run with
  | none =>
    dsimp only at hrun
    subst hrun
    simpa [LiteralRun.flush] using hparts
  | some run =>
    obtain ⟨start, text⟩ := run
    obtain ⟨hne, rfl⟩ := hrun
    rw [hinner.pos_eq]
    exact .literal hparts hne

theorem StringRead.splice {l m l' : Lexer} {parts : List (Span × StringPart)} {inner : List Char}
    {tokens : List Lexeme} (hinner : l.Reads inner m) (hparts : Parts l.kinds l.pos inner parts)
    (h : SpliceRead m tokens l') :
    StringRead l l' (parts ++ [(⟨m.pos, l'.pos⟩, .splice tokens)]) none := by
  obtain ⟨text, gap, delims', hreads, hne, hstream, hskip, _⟩ := h
  rw [hinner.kinds, hinner.pos_eq] at hstream
  have hall := hinner.trans hreads
  refine ⟨inner ++ text ++ gap, [], by simpa using hall, ?_, rfl⟩
  rw [hall.pos_eq, hinner.pos_eq, ← List.append_assoc]
  exact .splice hparts hstream hne hskip

theorem yields_doubleQuotedLoop (hgroup : GroupsRead nesting group) {opened : Span} {fuel : ℕ}
    {l m : Lexer} {parts : List (Span × StringPart)} {run : LiteralRun}
    (hread : StringRead l m parts run) (hopened : l.pos = opened.start + 1)
    (hfuel : m.rest.length < fuel) (hnest : nestingDepthLimit ≤ nesting + l.delims.length) :
    Yields (doubleQuotedLoop eof group opened fuel parts run) m fun parts l' =>
      ∃ inner close, l.Reads (inner ++ close) l' ∧ Parts l.kinds l.pos inner parts ∧
        (close = ['"'] ∨ close = []) := by
  induction fuel generalizing m parts run with
  | zero => omega
  | succ fuel ih =>
    apply yields_bind
    apply yields_get
    split
    · next hrest =>
      obtain ⟨inner, hinner, hparts⟩ := hread.flush
      apply yields_bind
      apply yields_unclosedString
      intro l' hcursor hdelims
      exact yields_pure ⟨inner, [], by simpa using hinner.of_eq hcursor hdelims, hparts, .inr rfl⟩
    next ch rest hrest =>
    have hone := Reads.advance_one hrest
    -- Whatever was read leaves fewer characters than fuel.
    have hround : ∀ {text : List Char} {l' : Lexer}, m.Reads text l' → text ≠ [] →
        l'.rest.length < fuel := by
      intro text l' hreads hne
      have hlen := hreads.length_eq
      have hpos := List.length_pos_of_ne_nil hne
      omega
    split
    · next hquote =>
      obtain ⟨inner, hinner, hparts⟩ := hread.flush
      apply yields_bind
      apply yields_modify
      apply yields_pure
      rw [hquote] at hone
      exact ⟨inner, ['"'], hinner.trans hone, hparts, .inl rfl⟩
    split
    · next hescape =>
      apply yields_bind
      apply yields_bumpSpanned hrest
      apply yields_bind
      apply yields_scanDoubleQuotedEscape.mono
      intro decoded l' hdecoded
      obtain ⟨text, htext, hline⟩ := hdecoded
      have hreads := hone.trans htext
      apply ih _ (hround hreads (by simp))
      cases decoded with
      | some ch => exact hread.push hreads (by simp) ch
      | none =>
        apply hread.continued hreads
        rw [hescape]
        exact hline rfl
    split
    · next hsigil =>
      apply yields_bind
      apply yields_mapError
      have hmlen : m.delims.length = l.delims.length := by
        obtain ⟨_, _, hreads, _⟩ := hread
        exact delims_length hreads
      apply (yields_scanSplice hgroup hrest hsigil (by rw [hmlen]; exact hnest)).mono
      intro splice l' hsplice
      apply yields_bind
      apply yields_get
      cases splice with
      | none => exact ih (hread.push hsplice (by simp) ch) (hround hsplice (by simp))
      | some tokens =>
        obtain ⟨inner, hinner, hparts⟩ := hread.flush
        apply ih (.splice hinner hparts hsplice)
        obtain ⟨_, _, _, hreads, hne, _⟩ := hsplice
        exact hround hreads (by simp [hne])
    dsimp only
    split
    · next htilde =>
      -- At the first character no literal run is open.
      have hrun : run = none := by
        obtain ⟨text, tail, hreads, _, hrun⟩ := hread
        cases run with
        | none => rfl
        | some run =>
          have hpos := hreads.pos_eq
          have hlen := Text.length_le_size tail
          have htail := List.length_pos_of_ne_nil hrun.1
          have hcursor := htilde.2.1
          rw [size_append] at hpos
          omega
      subst hrun
      obtain ⟨inner, hinner, hparts⟩ := hread.flush
      apply yields_bind
      apply yields_bumpSpanned hrest
      apply ih _ (hround hone (by simp))
      rw [htilde.1] at hone
      have hhome : Scanned m (.word (.tilde ⟨none⟩)) (m.advance 1) :=
        .leaf hone (by simp) rfl rfl (fun _ => rfl) (by simp [Token.spelling, Word.text])
      have hsplice := StringRead.splice hinner hparts (.of_scanned hhome)
      rw [hone.pos_eq] at hsplice
      rw [htilde.1]
      simpa [homePart, LiteralRun.flush] using hsplice
    · apply yields_bind
      apply yields_modify
      exact ih (hread.push hone (by simp) ch) (hround hone (by simp))

theorem yields_scanDoubleQuoted (hgroup : GroupsRead nesting group) {span : Span} {l : Lexer}
    {rest : List Char} (h : l.rest = '"' :: rest) (hspan : span.start = l.pos)
    (hnest : nestingDepthLimit ≤ nesting + l.delims.length) :
    Yields (scanDoubleQuoted eof group span) l (Scanned l) := by
  have hone := Reads.advance_one h
  apply yields_bind
  apply yields_modify
  apply yields_bind
  apply yields_get
  apply yields_bind
  have hstart : StringRead (l.advance 1) (l.advance 1) [] none :=
    ⟨[], [], .refl _, .nil, rfl⟩
  have hpos : (l.advance 1).pos = ((l.advance 1).finish span).start + 1 := by
    rw [hone.pos_eq, Lexer.finish, hspan]
    rfl
  apply (yields_doubleQuotedLoop hgroup hstart hpos (Nat.lt_succ_self _) hnest).mono
  intro parts l' hparts
  obtain ⟨inner, close, hreads, hparts, hclose⟩ := hparts
  apply yields_pure
  refine ⟨rfl, fun _ => rfl, _, hone.trans hreads, ?_⟩
  rw [hone.kinds, hone.pos_eq] at hparts
  have hread : ReadAt l.kinds l.pos ('"' :: inner ++ close) (.doubleQuoted parts) :=
    .doubleQuoted hparts hclose
  simpa using hread

/-! ## The next token -/

/-- A token and what is read of it. Only the end of the source reads nothing. -/
structure TokenRead (l : Lexer) (token : Token) (l' : Lexer) : Prop where
  read : ∃ text, l.cursor.Moves text l'.cursor ∧ ReadAt l.kinds l.pos text token
  shift : token.shift l.kinds = some l'.kinds
  ended : token.isEof = true → l'.rest = []

theorem TokenRead.of_scanned {l l' : Lexer} {token : Token} (h : Scanned l token l') :
    TokenRead l token l' := by
  obtain ⟨hproper, hneutral, text, hreads, hread⟩ := h
  refine ⟨⟨text, hreads.moves, hread⟩, ?_, ?_⟩
  · rw [hneutral, hreads.kinds]
  · intro heof
    rw [hproper] at heof
    cases heof

theorem yields_openDelim {l : Lexer} {kind : DelimKind} {rest : List Char} (hkind : kind ≠ .expr)
    (h : l.rest = kind.opener :: rest) : Yields (openDelim kind) l (TokenRead l) := by
  have hone := Reads.advance_one h
  apply yields_bind
  apply yields_bumpSpanned h
  apply yields_bind
  apply yields_modify
  apply yields_pure
  refine ⟨⟨_, hone.moves, ?_⟩, ?_, ?_⟩
  · apply ReadAt.leaf
    · cases kind <;> rfl
    · simp
    · cases kind <;> simp [DelimKind.left, DelimKind.opener, Token.spelling]
  · cases kind with
    | brace => rfl
    | bracket => rfl
    | expr => exact absurd rfl hkind
  · cases kind <;> simp [DelimKind.left, Token.isEof]

theorem yields_closeDelim {l : Lexer} {kind : DelimKind} {rest : List Char}
    (h : l.rest = kind.close :: rest) : Yields (closeDelim kind) l (TokenRead l) := by
  have hone := Reads.advance_one h
  have hproper : kind.right.isEof = false := by cases kind <;> rfl
  have hread : ReadAt l.kinds l.pos [kind.close] kind.right := by
    apply ReadAt.leaf
    · cases kind <;> rfl
    · simp
    · cases kind <;> simp [DelimKind.right, DelimKind.close, Token.spelling]
  apply yields_bind
  apply yields_bumpSpanned h
  apply yields_bind
  apply yields_get
  split
  · next hdelims =>
    apply yields_pure
    refine ⟨⟨_, hone.moves, hread⟩, ?_, by simp [hproper]⟩
    have hkinds : l.kinds = [] := by
      have hnil : (l.advance 1).kinds = [] := by rw [Lexer.kinds, hdelims]; rfl
      exact hnil
    rw [Lexer.kinds_advance, hkinds]
    cases kind <;> rfl
  · next delim delims hdelims =>
    split
    · next hclose =>
      apply yields_bind
      apply yields_modify
      apply yields_pure
      refine ⟨⟨_, hone.moves, hread⟩, ?_, by simp [hproper]⟩
      have hkinds : l.kinds = delim.kind :: delims.map OpenDelim.kind := by
        have hcons : (l.advance 1).kinds = delim.kind :: delims.map OpenDelim.kind := by
          rw [Lexer.kinds, hdelims]
          rfl
        exact hcons
      rw [hkinds]
      cases kind with
      | brace => exact if_pos hclose
      | bracket => exact if_pos hclose
      | expr => exact if_pos hclose
    · exact yields_fail

theorem yields_eofOrUnterminated {l : Lexer} (h : l.rest = []) :
    Yields (eofOrUnterminated eof) l (TokenRead l) := by
  apply yields_bind
  apply yields_get
  split
  · exact yields_fail
  · apply yields_pure
    refine ⟨⟨[], .refl _, .leaf rfl (fun _ => rfl) ?_⟩, rfl, fun _ => h⟩
    simp [Token.spelling]

theorem yields_scanToken (hgroup : GroupsRead nesting group) {rules : PathRules} {span : Span}
    {l : Lexer} (hspan : span.start = l.pos) (hnest : nestingDepthLimit ≤ nesting + l.delims.length) :
    Yields (scanToken eof group rules span) l (TokenRead l) := by
  have hbegins := arm_begins l.inExpr l.suppressNewline l.rest
  apply yields_bind
  apply yields_get
  have hplain : ∀ {x : Lex Token}, Yields x l (Scanned l) → Yields x l (TokenRead l) :=
    fun hx => hx.mono fun _ _ h => .of_scanned h
  cases harm : arm l.inExpr l.suppressNewline l.rest with
  | eof =>
    rw [harm] at hbegins
    exact yields_eofOrUnterminated hbegins
  | op op width =>
    rw [harm] at hbegins
    apply hplain
    apply yields_bind
    apply yields_advance
    intro hreads
    rw [hbegins.1] at hreads
    apply yields_pure
    apply Scanned.leaf hreads hbegins.2 rfl rfl (fun _ => rfl)
    intro spelling hmem
    exact Option.some.inj hmem
  | hashQuoted =>
    rw [harm] at hbegins
    obtain ⟨hhead, hopens⟩ := hbegins
    obtain ⟨rest, hrest⟩ := List.head?_eq_some_iff.mp hhead
    apply hplain
    apply yields_bind
    apply yields_advance
    intro hhashes
    have hquote : (l.advance (hashRun l.rest)).rest ≠ [] := by
      intro hnil
      rw [Lexer.rest_advance, List.drop_eq_nil_iff] at hnil
      have hsome := of_decide_eq_true hopens
      rw [List.getElem?_eq_none hnil] at hsome
      cases hsome
    obtain ⟨ch, rest', hrest'⟩ := List.exists_cons_of_ne_nil hquote
    apply (yields_scanQuoted hrest').mono
    intro token l' h
    obtain ⟨hquoted, text, hne, hreads⟩ := h
    exact scanned_singleQuoted (hhashes.trans hreads) (by simp [hne]) hquoted
  | separator =>
    rw [harm] at hbegins
    obtain ⟨ch, rest, hrest⟩ := List.exists_cons_of_ne_nil hbegins
    exact hplain (yields_scanSeparator hrest)
  | opener kind =>
    rw [harm] at hbegins
    obtain ⟨rest, hrest⟩ := List.head?_eq_some_iff.mp hbegins.2
    exact yields_openDelim hbegins.1 hrest
  | closer kind =>
    rw [harm] at hbegins
    obtain ⟨rest, hrest⟩ := List.head?_eq_some_iff.mp hbegins.2
    exact yields_closeDelim hrest
  | simple token =>
    rw [harm] at hbegins
    obtain ⟨_, ch, rest, hrest, hleaf, hproper, hneutral, hspelling⟩ := hbegins
    exact hplain (yields_bumpSimple hrest hleaf hproper hneutral hspelling)
  | ampersand =>
    apply yields_bind
    apply yields_modify
    apply yields_bind
    apply yields_eat
    intro doubled _ _ _ _
    apply yields_bind
    apply yields_get
    exact yields_error
  | dollar =>
    rw [harm] at hbegins
    obtain ⟨rest, hrest⟩ := List.head?_eq_some_iff.mp hbegins
    apply hplain
    apply yields_bind
    apply yields_modify
    apply yields_bind
    apply (yields_scanDollar hgroup (Reads.advance_one hrest) hnest).mono
    intro token l' h
    apply yields_bind
    apply yields_get
    cases token with
    | none => exact yields_error
    | some token => exact yields_pure h
  | quoted =>
    rw [harm] at hbegins
    obtain ⟨ch, rest, hrest⟩ := List.exists_cons_of_ne_nil hbegins
    apply hplain
    apply (yields_scanQuoted hrest).mono
    intro token l' h
    obtain ⟨hquoted, text, hne, hreads⟩ := h
    exact scanned_singleQuoted hreads hne hquoted
  | doubleQuoted =>
    rw [harm] at hbegins
    obtain ⟨rest, hrest⟩ := List.head?_eq_some_iff.mp hbegins
    exact hplain (yields_scanDoubleQuoted hgroup hrest hspan hnest)
  | redirectGt =>
    rw [harm] at hbegins
    apply hplain
    apply yields_scanRedirectGt.mono
    exact fun _ _ h => h.scanned (.refl l) (.inr hbegins)
  | redirectLt =>
    rw [harm] at hbegins
    apply hplain
    apply yields_scanRedirectLt.mono
    exact fun _ _ h => h.scanned (.refl l) (.inr hbegins)
  | fdRedirect =>
    rw [harm] at hbegins
    obtain ⟨ch, rest, hrest, hdigit⟩ := hbegins
    exact hplain (yields_scanFdRedirect hrest hdigit)
  | spread =>
    rw [harm] at hbegins
    apply hplain
    apply yields_bind
    apply yields_advance
    intro hreads
    rw [hbegins] at hreads
    apply yields_pure
    apply Scanned.leaf hreads (by simp) rfl rfl (fun _ => rfl)
    intro spelling hmem
    exact Option.some.inj hmem
  | tag =>
    rw [harm] at hbegins
    obtain ⟨rest, hrest⟩ := List.head?_eq_some_iff.mp hbegins
    exact hplain (yields_scanTag hrest)
  | numeral len =>
    rw [harm] at hbegins
    obtain ⟨ch, rest, hrest⟩ := List.exists_cons_of_ne_nil hbegins.2.1
    exact hplain (yields_scanNumeralWord hrest hbegins.2.2)
  | bare =>
    rw [harm] at hbegins
    obtain ⟨ch, rest, hrest, hbare, hcomma, hop⟩ := hbegins
    exact hplain (yields_scanBareWord hrest hbare hcomma hop)
  | control ch =>
    rw [harm] at hbegins
    obtain ⟨c, rest, hrest⟩ := List.exists_cons_of_ne_nil hbegins
    apply yields_bind
    apply yields_bumpSpanned hrest
    exact yields_error

/-- A token after what was skipped before it. -/
structure LexemeRead (l : Lexer) (lexeme : Lexeme) (l' : Lexer) : Prop where
  read : ∃ gap text, Skipped (suppresses l.kinds) gap ∧ l.cursor.Moves (gap ++ text) l'.cursor ∧
    ReadAt l.kinds (l.pos + size gap) text lexeme.token ∧
    lexeme.span = ⟨l.pos + size gap, l.pos + size (gap ++ text)⟩
  shift : lexeme.token.shift l.kinds = some l'.kinds
  ended : lexeme.token.isEof = true → l'.rest = []

theorem yields_nextToken (hgroup : GroupsRead nesting group) {rules : PathRules} {l : Lexer}
    (hnest : nestingDepthLimit ≤ nesting + l.delims.length) :
    Yields (nextToken eof group rules) l (LexemeRead l) := by
  obtain ⟨gap, hskip, hgap⟩ := skips_inlineWhitespace l
  apply yields_bind
  apply yields_modify
  apply yields_bind
  apply yields_get
  apply yields_bind
  apply (yields_scanToken hgroup rfl (by rw [delims_length hgap]; exact hnest)).mono
  intro token l' htoken
  obtain ⟨⟨text, hmoves, hread⟩, hshift, hended⟩ := htoken
  have hall := hgap.moves.trans hmoves
  rw [hgap.kinds, hgap.pos_eq] at hread
  rw [hgap.kinds] at hshift
  apply yields_bind
  apply yields_get
  apply yields_pure
  refine ⟨⟨gap, text, hskip, hall, hread, ?_⟩, hshift, hended⟩
  have hstop : l'.pos = l.pos + size (gap ++ text) := hall.pos_eq
  rw [← hstop, ← hgap.pos_eq]
  rfl

theorem LexemeRead.consumes {l l' : Lexer} {lexeme : Lexeme} (h : LexemeRead l lexeme l') :
    lexeme.token.isEof = true ∨ l'.rest.length < l.rest.length := by
  obtain ⟨⟨gap, text, _, hmoves, hread, _⟩, _, _⟩ := h
  by_cases he : text = []
  · exact .inl (hread.nonempty he)
  · right
    have hlen : l.rest.length = (gap ++ text).length + l'.rest.length := hmoves.length_eq
    have hpos := List.length_pos_of_ne_nil he
    rw [List.length_append] at hlen
    omega

/-! ## Groups within groups -/

/-- The tokens of a loop so far, and the delimiters they leave open. -/
structure LoopRead (l m : Lexer) (delims : List DelimKind) (tokens : List Lexeme) : Prop where
  read : ∃ text, l.cursor.Moves text m.cursor ∧ Stream delims l.pos text tokens m.kinds

theorem LoopRead.push {l m l' : Lexer} {delims : List DelimKind} {tokens : List Lexeme}
    {lexeme : Lexeme} (h : LoopRead l m delims tokens) (hread : LexemeRead m lexeme l') :
    LoopRead l l' delims (tokens ++ [lexeme]) := by
  obtain ⟨text, hmoves, hstream⟩ := h
  obtain ⟨⟨gap, body, hskip, hnext, hbody, hspan⟩, hshift, _⟩ := hread
  have hpos : m.pos = l.pos + size text := hmoves.pos_eq
  refine ⟨text ++ gap ++ body, by simpa using hmoves.trans hnext, ?_⟩
  rw [hpos] at hbody hspan
  cases lexeme with
  | mk token span =>
    simp only [Lexeme.span] at hspan
    rw [hspan]
    apply hstream.push hskip hbody hshift
    · simp only [size_append]
      omega
    · simp only [size_append]
      omega

theorem yields_groupLoop (hgroup : GroupsRead nesting group) {rules : PathRules} {fuel : ℕ}
    {kind : DelimKind} {l m : Lexer} {tokens : List Lexeme}
    (hshallow : l.delims.length < nestingDepthLimit)
    (hread : LoopRead l m (kind :: l.kinds) tokens) (hsuffix : kind :: l.kinds <:+ m.kinds)
    (hfuel : m.rest.length < fuel) (hnest : nestingDepthLimit ≤ nesting + (l.delims.length + 1)) :
    Yields (groupLoop (nextToken eof group rules) (l.delims.length + 1) fuel tokens) m
      (GroupRead l kind) := by
  induction fuel generalizing m tokens with
  | zero => omega
  | succ fuel ih =>
    have hdeep := hsuffix.length_le
    simp only [Lexer.kinds, List.length_cons, List.length_map] at hdeep
    apply yields_bind
    apply (yields_nextToken hgroup (by omega)).mono
    intro lexeme l' hlexeme
    apply yields_bind
    apply yields_get
    split
    · next hclosed =>
      obtain ⟨⟨gap, body, hskip, hnext, hbody, hspan⟩, hshift, _⟩ := hlexeme
      rcases shift_suffix hsuffix hshift with hstill | ⟨hkinds, hkinds', hspelling⟩
      · have hlen := hstill.length_le
        simp only [Lexer.kinds, List.length_cons, List.length_map] at hlen
        omega
      · have hclose := hbody.spelled hspelling
        subst hclose
        obtain ⟨text, hmoves, hstream⟩ := hread
        have hpos : m.pos = l.pos + size text := hmoves.pos_eq
        have hall := hmoves.trans hnext
        apply yields_pure
        refine ⟨hshallow, text, gap, [kind.close], m.kinds, ⟨by simpa using hall, hkinds'⟩, hstream,
          hskip, .inl ⟨rfl, hkinds, ?_⟩⟩
        have hstop : l'.pos = l.pos + size (text ++ (gap ++ [kind.close])) := hall.pos_eq
        rw [hspan, hstop, hpos]
        simp only [size_append, Nat.add_assoc]
    next hopen =>
    have hstill : kind :: l.kinds <:+ l'.kinds := by
      rcases shift_suffix hsuffix hlexeme.shift with hstill | ⟨_, hkinds', _⟩
      · exact hstill
      · have hlen := congrArg List.length hkinds'
        simp only [Lexer.kinds, List.length_map] at hlen
        omega
    split
    · next heof =>
      obtain ⟨⟨gap, body, hskip, hnext, hbody, _⟩, hshift, hended⟩ := hlexeme
      obtain ⟨text, hmoves, hstream⟩ := hread
      rw [Token.eq_eof heof] at hbody
      have hempty := hbody.spelled rfl
      subst hempty
      apply yields_bind
      apply yields_modify
      apply yields_pure
      refine ⟨hshallow, text, gap, [], m.kinds, ⟨by simpa using hmoves.trans hnext, ?_⟩, hstream, hskip,
        .inr ⟨rfl, rfl, hended heof⟩⟩
      have houter := List.suffix_iff_eq_drop.mp ((List.suffix_cons _ _).trans hstill)
      simp only [Lexer.kinds, List.length_map, List.map_drop, Nat.add_sub_cancel] at houter ⊢
      exact houter.symm
    · next hproper =>
      apply ih (hread.push hlexeme) hstill
      rcases hlexeme.consumes with heof | hless
      · exact absurd heof hproper
      · omega

theorem groupsRead_scanTokenGroup {rules : PathRules} (nesting : ℕ) :
    GroupsRead nesting (scanTokenGroup eof rules nesting) := by
  induction nesting with
  | zero =>
    intro l opener kind hnest
    apply yields_bind
    apply yields_bind
    apply yields_get
    rw [if_pos (by omega)]
    exact yields_error
  | succ nesting ih =>
    intro l opener kind hnest
    apply yields_bind
    apply yields_bind
    apply yields_get
    split
    · exact yields_error
    · next hshallow =>
      apply yields_modify
      apply yields_bind
      apply yields_get
      exact yields_groupLoop ih (by omega) ⟨[], .refl _, .nil⟩ (List.suffix_refl _)
        (Nat.lt_succ_self _) (by omega)

/-- The loop stops at the first token that ends the source. -/
theorem yields_tokenizeLoop (hgroup : GroupsRead nesting group) {rules : PathRules} {fuel : ℕ}
    {l m : Lexer} {tokens : List Lexeme} (hread : LoopRead l m l.kinds tokens)
    (hproper : ∀ lexeme ∈ tokens, lexeme.token.isEof = false) (hfuel : m.rest.length < fuel)
    (hnest : nestingDepthLimit ≤ nesting) :
    Yields (tokenizeLoop (nextToken eof group rules) fuel tokens) m fun tokens l' =>
      LoopRead l l' l.kinds tokens ∧ l'.rest = [] ∧ ∃ init last, tokens = init ++ [last] ∧
        last.token.isEof = true ∧ ∀ lexeme ∈ init, lexeme.token.isEof = false := by
  induction fuel generalizing m tokens with
  | zero => omega
  | succ fuel ih =>
    apply yields_bind
    apply (yields_nextToken hgroup (by omega)).mono
    intro lexeme l' hlexeme
    split
    · next heof =>
      exact yields_pure ⟨hread.push hlexeme, hlexeme.ended heof, tokens, lexeme, rfl, heof, hproper⟩
    · next hgoes =>
      apply ih (hread.push hlexeme)
      · intro last hmem
        rcases List.mem_append.mp hmem with hmem | hmem
        · exact hproper last hmem
        · rw [List.mem_singleton.mp hmem]
          exact Bool.eq_false_iff.mpr hgoes
      · rcases hlexeme.consumes with heof | hless
        · exact absurd heof hgoes
        · omega

end Nested

end Lex

/-! ## The whole source -/

theorem Stream.last_eof {delims delims' : List DelimKind} {source : List Char} {init : List Lexeme}
    {last : Lexeme} (h : Stream delims 0 source (init ++ [last]) delims')
    (heof : last.token.isEof = true) : last = .mk .eof (.point (size source)) := by
  generalize htokens : init ++ [last] = tokens at h
  cases h with
  | nil => simp at htokens
  | @snoc _ mid _ _ text gap body tokens token _ _ hread _ =>
    obtain ⟨_, hlast⟩ := List.append_inj' htokens rfl
    rw [List.singleton_inj.mp hlast] at heof ⊢
    have htoken : token = .eof := Token.eq_eof heof
    subst htoken
    have hempty := hread.spelled rfl
    subst hempty
    simp only [Nat.zero_add, List.append_nil, Span.point]

/-- Every character of the source is in a token or skipped between two, in the streams nested in
tokens as in the source's own, and the last token is the end of the source. -/
structure Lossless (source : List Char) (tokens : List Lexeme) : Prop where
  covers : ∃ delims, Stream [] 0 source tokens delims
  ends : ∃ init, tokens = init ++ [.mk .eof (.point (size source))] ∧
    ∀ lexeme ∈ init, lexeme.token.isEof = false
  tiled : ∀ inner, Within inner tokens → Tiled source inner

/-- Each round of a loop ends, and reads on unless the source has ended. A round `nesting` levels
below the limit leaves room for every group it meets. -/
def RoundsConsume (eof : EofPolicy) (rules : PathRules) : Prop :=
  ∀ nesting l, Lex.nestingDepthLimit ≤ nesting + l.delims.length →
    Yields (Lex.nextToken eof (Lex.scanTokenGroup eof rules nesting) rules) l fun lexeme l' =>
      lexeme.token.isEof = true ∨ l'.rest.length < l.rest.length

/-- The lexer ends on every source, its groups nested no deeper than the limit, and what it
accepts it covers. -/
theorem tokenize_total_and_lossless (rules : PathRules) (eof : EofPolicy) (source : String) :
    RoundsConsume eof rules ∧ ∃ result, tokenize rules eof source = some result ∧
      ∀ lexed, result = .ok lexed → Lossless source.toList lexed.tokens := by
  constructor
  · intro nesting l hnest
    apply (Lex.yields_nextToken (Lex.groupsRead_scanTokenGroup nesting) hnest).mono
    exact fun _ _ h => h.consumes
  unfold tokenize
  dsimp only
  split
  · exact ⟨_, rfl, fun _ h => by cases h⟩
  split
  · exact ⟨_, rfl, fun _ h => by cases h⟩
  have hloop : Yields
      (tokenizeLoop (Lex.nextToken eof (Lex.scanTokenGroup eof rules Lex.nestingDepthLimit) rules)
        (source.toList.length + 1) []) (Lexer.new source.toList) _ :=
    Lex.yields_tokenizeLoop (Lex.groupsRead_scanTokenGroup Lex.nestingDepthLimit)
      ⟨[], .refl _, .nil⟩ (by simp) (Nat.lt_succ_self _) (le_refl _)
  rcases hloop with ⟨e, l', hrun⟩ | ⟨tokens, l', hrun, hread⟩
  · rw [hrun]
    exact ⟨_, rfl, fun _ h => by cases h⟩
  · rw [hrun]
    refine ⟨_, rfl, ?_⟩
    intro lexed hlexed
    cases hlexed
    obtain ⟨⟨text, hmoves, hstream⟩, hrest, init, last, rfl, heof, hproper⟩ := hread
    have htext : source.toList = text := by
      have hafter : (Lexer.new source.toList).rest = text ++ l'.rest := hmoves.after
      rwa [hrest, List.append_nil] at hafter
    subst htext
    have hlast := hstream.last_eof heof
    subst hlast
    refine ⟨⟨_, hstream⟩, ⟨init, rfl, hproper⟩, ?_⟩
    intro inner hwithin
    have hsource : StreamOf source.toList (init ++ [.mk .eof (.point (size source.toList))]) :=
      ⟨[], source.toList, [], [], _, by simp, hstream⟩
    exact (hsource.within hwithin).tiled

end Ral.Syntax
