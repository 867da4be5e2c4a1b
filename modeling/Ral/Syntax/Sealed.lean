import Ral.Syntax.Lossless

/-! # Where streams end

The lexer marks the end of the source alone: no stream nested in a token holds an end mark.
-/

namespace Ral

namespace Run
variable {ε σ α β : Type} {P Q : α → Prop}

/-- Every result satisfies `P`, whatever the state. -/
structure Gives (x : Run ε σ α) (P : α → Prop) : Prop where
  result : ∀ {s a t}, x s = some (.ok a, t) → P a

theorem gives_pure {a : α} (h : P a) : Gives (pure a : Run ε σ α) P := by
  constructor
  intro s b t hx
  cases hx
  exact h

theorem gives_fail {e : ε} : Gives (fail e : Run ε σ α) P := ⟨nofun⟩

theorem gives_stuck : Gives (stuck : Run ε σ α) P := ⟨nofun⟩

theorem Gives.bind {x : Run ε σ α} {f : α → Run ε σ β} {P : β → Prop} (hx : Gives x Q)
    (hf : ∀ a, Q a → Gives (f a) P) : Gives (x >>= f) P := by
  constructor
  intro s b u h
  obtain ⟨a, t, ha, hb⟩ := bind_eq_ok.mp h
  exact (hf a (hx.result ha)).result hb

theorem gives_bind {x : Run ε σ α} {f : α → Run ε σ β} {P : β → Prop} (hf : ∀ a, Gives (f a) P) :
    Gives (x >>= f) P := Gives.bind (Q := fun _ => True) ⟨fun _ => trivial⟩ fun a _ => hf a

theorem Gives.mono {x : Run ε σ α} (h : Gives x Q) (hq : ∀ a, Q a → P a) : Gives x P :=
  ⟨fun hx => hq _ (h.result hx)⟩

theorem gives_ite {c : Prop} [Decidable c] {x y : Run ε σ α} (hx : Gives x P) (hy : Gives y P) :
    Gives (if c then x else y) P := by
  split
  · exact hx
  · exact hy

theorem Gives.mapError {g : ε → ε} {x : Run ε σ α} (h : Gives x P) : Gives (mapError g x) P := by
  constructor
  intro s a t hx
  obtain ⟨⟨r, u⟩, hr, he⟩ := Option.map_eq_some_iff.mp hx
  cases r with
  | error e => cases he
  | ok b =>
    cases he
    exact h.result hr

end Run

namespace Syntax
open Run

/-! ## Sealed streams -/

/-- `inner` is a stream of its own right below the token. -/
inductive Token.Nests (inner : List Lexeme) : Token → Prop
  | expr : Token.Nests inner (.expr inner)
  | splice {parts : List (Span × StringPart)} {at' : Span} : (at', .splice inner) ∈ parts →
      Token.Nests inner (.doubleQuoted parts)

/-- No end mark among the tokens, nor in what nests in them. -/
inductive Sealed : List Lexeme → Prop
  | intro {tokens : List Lexeme} : (∀ l ∈ tokens, l.token.isEof = false) →
      (∀ l ∈ tokens, ∀ inner, l.token.Nests inner → Sealed inner) → Sealed tokens

def Token.Shut (token : Token) : Prop := ∀ inner, token.Nests inner → Sealed inner

/-- No end mark in what nests in a string's parts. -/
def PartsShut (parts : List (Span × StringPart)) : Prop :=
  ∀ at' inner, (at', .splice inner) ∈ parts → Sealed inner

namespace Sealed
variable {tokens tokens' : List Lexeme} {token : Token} {span : Span}

theorem proper (h : Sealed tokens) : ∀ l ∈ tokens, l.token.isEof = false := by
  cases h with
  | intro hproper _ => exact hproper

theorem shut (h : Sealed tokens) : ∀ l ∈ tokens, l.token.Shut := by
  cases h with
  | intro _ hshut => exact hshut

theorem nil : Sealed [] := .intro nofun nofun

theorem one (hproper : token.isEof = false) (hshut : token.Shut) : Sealed [.mk token span] := by
  constructor
  · intro l hl
    rwa [List.mem_singleton.mp hl]
  · intro l hl
    rw [List.mem_singleton.mp hl]
    exact hshut

theorem append (h : Sealed tokens) (h' : Sealed tokens') : Sealed (tokens ++ tokens') := by
  constructor
  · intro l hl
    rcases List.mem_append.mp hl with hl | hl
    · exact h.proper l hl
    · exact h'.proper l hl
  · intro l hl
    rcases List.mem_append.mp hl with hl | hl
    · exact h.shut l hl
    · exact h'.shut l hl

theorem snoc {lexeme : Lexeme} (h : Sealed tokens) (hproper : lexeme.token.isEof = false)
    (hshut : lexeme.token.Shut) : Sealed (tokens ++ [lexeme]) := by
  cases lexeme with
  | mk token span => exact h.append (.one hproper hshut)

end Sealed

theorem Token.Shut.of_leaf {token : Token} (h : token.isLeaf = true) : token.Shut := by
  intro inner hnests
  cases hnests with
  | expr => cases h
  | splice _ => cases h

theorem Token.Shut.expr {body : List Lexeme} (h : Sealed body) : (Token.expr body).Shut := by
  intro inner hnests
  cases hnests with
  | expr => exact h

theorem Token.Shut.doubleQuoted {parts : List (Span × StringPart)} (h : PartsShut parts) :
    (Token.doubleQuoted parts).Shut := by
  intro inner hnests
  cases hnests with
  | splice hmem => exact h _ _ hmem

theorem PartsShut.nil : PartsShut [] := by
  intro at' inner hmem
  cases hmem

theorem PartsShut.snoc {parts : List (Span × StringPart)} {part : Span × StringPart}
    (h : PartsShut parts) (hpart : ∀ inner, part.2 = .splice inner → Sealed inner) :
    PartsShut (parts ++ [part]) := by
  intro at' inner hmem
  rcases List.mem_append.mp hmem with hmem | hmem
  · exact h at' inner hmem
  · rw [← List.mem_singleton.mp hmem] at hpart
    exact hpart inner rfl

theorem PartsShut.flush {parts : List (Span × StringPart)} (h : PartsShut parts)
    (run : Lex.LiteralRun) (stop : ℕ) : PartsShut (run.flush parts stop) := by
  cases run with
  | none => exact h
  | some literal => exact h.snoc nofun

namespace Lex

/-! ## Tokens without streams -/

/-- A token that reads as itself: a leaf and no end mark. -/
def Plain (token : Token) : Prop := token.isLeaf = true ∧ token.isEof = false

theorem left_plain (kind : DelimKind) : Plain kind.left := by cases kind <;> exact ⟨rfl, rfl⟩

theorem right_plain (kind : DelimKind) : Plain kind.right := by cases kind <;> exact ⟨rfl, rfl⟩

section Leaves
variable {eof : EofPolicy} {span : Span}

theorem gives_eofOrUnterminated : Gives (eofOrUnterminated eof) Token.Shut := by
  apply gives_bind
  intro l
  split
  · exact gives_fail
  · exact gives_pure (.of_leaf rfl)

theorem gives_closeDelim {kind : DelimKind} : Gives (closeDelim kind) Plain := by
  apply gives_bind
  intro span
  apply gives_bind
  intro l
  split
  · exact gives_pure (right_plain kind)
  · apply gives_ite
    · exact gives_bind fun _ => gives_pure (right_plain kind)
    · exact gives_fail

theorem gives_scanSeparator : Gives scanSeparator Plain := by
  apply gives_bind
  intro l
  apply gives_bind
  intro _
  apply gives_bind
  intro hard
  apply gives_pure
  split <;> exact ⟨rfl, rfl⟩

theorem gives_scanBareWord {rules : PathRules} : Gives (scanBareWord rules) Plain := by
  apply gives_bind
  intro l
  apply gives_ite
  · exact gives_bind fun _ => gives_pure ⟨rfl, rfl⟩
  · exact gives_bind fun _ => gives_pure ⟨rfl, rfl⟩

theorem gives_scanNumeralWord {len : ℕ} : Gives (scanNumeralWord len) Plain :=
  gives_bind fun _ => gives_bind fun _ => gives_bind fun _ => gives_pure ⟨rfl, rfl⟩

theorem gives_scanTag : Gives (scanTag span) Plain := by
  apply gives_bind
  intro _
  apply gives_bind
  intro l
  apply gives_bind
  intro label
  apply gives_bind
  intro l
  exact gives_ite gives_fail (gives_pure ⟨rfl, rfl⟩)

theorem gives_scanQuoted {level : ℕ} : Gives (scanQuoted eof span level) Plain := by
  apply gives_bind
  intro _
  apply gives_bind
  intro l
  dsimp only
  split
  · exact gives_bind fun _ => gives_pure ⟨rfl, rfl⟩
  · exact gives_fail
  · exact gives_bind fun _ => gives_bind fun _ => gives_pure ⟨rfl, rfl⟩

theorem gives_redirect {token : Except String Token} (h : ∀ t, token = .ok t → Plain t) :
    Gives (redirect span token) Plain := by
  apply gives_bind
  intro l
  cases token with
  | ok t => exact gives_pure (h t rfl)
  | error why => exact gives_fail

theorem redirectToken_plain {fd : Option (List Char)} {op : RedirectOp} :
    ∀ t, redirectToken fd op = .ok t → Plain t := by
  intro t h
  obtain ⟨op', rfl⟩ := redirectToken_redirect h
  exact ⟨rfl, rfl⟩

theorem dupToken_plain {fd : Option (List Char)} {target : List Char} :
    ∀ t, dupToken fd target = .ok t → Plain t := by
  intro t h
  rw [(dupToken_redirect h)]
  exact ⟨rfl, rfl⟩

theorem gives_scanRedirectGt {fd : Option (List Char)} : Gives (scanRedirectGt fd span) Plain := by
  apply gives_bind
  intro _
  apply gives_bind
  intro l
  apply gives_ite
  · exact gives_bind fun _ => gives_redirect redirectToken_plain
  apply gives_ite
  · exact gives_bind fun _ => gives_redirect redirectToken_plain
  apply gives_ite
  · apply gives_bind
    intro _
    apply gives_bind
    intro l
    apply gives_bind
    intro target
    exact gives_ite (gives_redirect nofun) (gives_redirect dupToken_plain)
  · exact gives_redirect redirectToken_plain

theorem gives_scanRedirectLt {fd : Option (List Char)} : Gives (scanRedirectLt fd span) Plain := by
  apply gives_bind
  intro _
  apply gives_bind
  intro l
  apply gives_ite
  · apply gives_bind
    intro _
    apply gives_bind
    intro l
    apply gives_ite
    · exact gives_bind fun _ => gives_redirect nofun
    · exact gives_ite (gives_redirect nofun) (gives_redirect redirectToken_plain)
  · exact gives_redirect redirectToken_plain

theorem gives_scanFdRedirect : Gives (scanFdRedirect span) Plain := by
  apply gives_bind
  intro l
  apply gives_bind
  intro digits
  apply gives_bind
  intro l
  exact gives_ite gives_scanRedirectGt gives_scanRedirectLt

theorem gives_scanDelimitedName : Gives scanDelimitedName Plain := by
  apply gives_bind
  intro l
  apply gives_bind
  intro _
  apply gives_bind
  intro l'
  apply gives_bind
  intro name
  apply gives_bind
  intro l''
  refine gives_ite gives_fail ?_
  refine gives_ite gives_fail ?_
  apply gives_ite
  · exact gives_bind fun _ => gives_pure ⟨rfl, rfl⟩
  · exact gives_ite gives_fail gives_fail

end Leaves

/-! ## Groups and splices -/

section Nested
variable {eof : EofPolicy} {group : Group}

def GroupsSealed (group : Group) : Prop := ∀ opener kind, Gives (group opener kind) fun r => Sealed r.1

theorem gives_scanDollar (hgroup : GroupsSealed group) : Gives (scanDollar group) fun token =>
    ∀ t, token = some t → t.isEof = false ∧ t.Shut := by
  have hplain {t : Token} (h : Plain t) : ∀ u, some t = some u → u.isEof = false ∧ u.Shut := by
    intro u he
    cases he
    exact ⟨h.2, .of_leaf h.1⟩
  apply gives_bind
  intro l
  apply gives_ite
  · apply gives_bind
    intro name
    exact gives_pure (hplain ⟨rfl, rfl⟩)
  refine gives_ite gives_fail ?_
  apply gives_ite
  · apply gives_scanDelimitedName.bind
    intro token htoken
    exact gives_pure (hplain htoken)
  apply gives_ite
  · apply gives_bind
    intro opener
    apply (hgroup opener .expr).bind
    intro r hr
    apply gives_pure
    intro t he
    cases he
    exact ⟨rfl, .expr hr⟩
  · exact gives_pure nofun

theorem gives_scanSpliceGroup (hgroup : GroupsSealed group) (kind : DelimKind) :
    Gives (scanSpliceGroup group kind) Sealed := by
  apply gives_bind
  intro opener
  apply (hgroup opener kind).bind
  intro r hr
  apply gives_pure
  have hleft := left_plain kind
  have hright := right_plain kind
  apply (Sealed.one hleft.2 (.of_leaf hleft.1)).append
  apply hr.append
  cases r.2 with
  | none => exact .nil
  | some span => exact .one hright.2 (.of_leaf hright.1)

theorem gives_keyGroups (hgroup : GroupsSealed group) (fuel : ℕ) {tokens : List Lexeme}
    (h : Sealed tokens) : Gives (keyGroups group fuel tokens) Sealed := by
  induction fuel generalizing tokens with
  | zero => exact gives_stuck
  | succ fuel ih =>
    apply gives_bind
    intro l
    apply gives_ite
    · apply (gives_scanSpliceGroup hgroup .bracket).bind
      intro key hkey
      exact ih (h.append hkey)
    · exact gives_pure h

theorem gives_spliceHead (hgroup : GroupsSealed group) : Gives (spliceHead group) fun head =>
    ∀ tokens, head = some tokens → Sealed tokens := by
  have hbang {span : Span} : Sealed [.mk .bang span] := .one rfl (.of_leaf rfl)
  have htoken {token : Option Token} {span : Span}
      (h : ∀ t, token = some t → t.isEof = false ∧ t.Shut) :
      Sealed (token.map fun token => Lexeme.mk token span).toList := by
    cases token with
    | none => exact .nil
    | some token => exact .one (h token rfl).1 (h token rfl).2
  apply gives_bind
  intro l
  apply gives_bind
  intro _
  apply gives_ite
  · apply gives_bind
    intro l
    apply gives_ite
    · apply (gives_scanSpliceGroup hgroup .brace).bind
      intro body hbody
      apply gives_pure
      intro tokens he
      cases he
      exact hbang.append hbody
    apply gives_ite
    · apply gives_bind
      intro _
      apply (gives_scanDollar hgroup).bind
      intro token ht
      apply gives_bind
      intro l
      apply gives_pure
      intro tokens he
      cases he
      exact hbang.append (htoken ht)
    · exact gives_pure nofun
  · apply (gives_scanDollar hgroup).bind
    intro token ht
    apply gives_bind
    intro l
    apply gives_pure
    intro tokens he
    cases token with
    | none => cases he
    | some token =>
      cases he
      exact htoken ht

theorem gives_scanSplice (hgroup : GroupsSealed group) : Gives (scanSplice group) fun splice =>
    ∀ tokens, splice = some tokens → Sealed tokens := by
  apply (gives_spliceHead hgroup).bind
  intro head hhead
  cases head with
  | none => exact gives_pure nofun
  | some tokens =>
    apply gives_ite
    · exact gives_pure hhead
    · apply gives_bind
      intro l
      apply (gives_keyGroups hgroup _ (hhead tokens rfl)).bind
      intro tokens htokens
      apply gives_pure
      intro tokens' he
      cases he
      exact htokens

/-! ## Strings -/

theorem gives_doubleQuotedLoop (hgroup : GroupsSealed group) {opened : Span} (fuel : ℕ)
    {parts : List (Span × StringPart)} {run : LiteralRun} (h : PartsShut parts) :
    Gives (doubleQuotedLoop eof group opened fuel parts run) PartsShut := by
  induction fuel generalizing parts run with
  | zero => exact gives_stuck
  | succ fuel ih =>
    apply gives_bind
    intro l
    dsimp only
    split
    · exact gives_bind fun _ => gives_pure (h.flush _ _)
    apply gives_ite
    · exact gives_bind fun _ => gives_pure (h.flush _ _)
    apply gives_ite
    · exact gives_bind fun _ => gives_bind fun _ => ih h
    apply gives_ite
    · apply (gives_scanSplice hgroup).mapError.bind
      intro splice hsplice
      apply gives_bind
      intro l
      cases splice with
      | none => exact ih h
      | some tokens =>
        apply ih
        apply (h.flush _ _).snoc
        intro inner he
        cases he
        exact hsplice tokens rfl
    apply gives_ite
    · apply gives_bind
      intro span
      apply ih
      apply h.snoc
      intro inner he
      cases he
      exact .one rfl (.of_leaf rfl)
    · exact gives_bind fun _ => ih h

/-! ## The next token -/

theorem gives_scanToken (hgroup : GroupsSealed group) {rules : PathRules} {span : Span} :
    Gives (scanToken eof group rules span) Token.Shut := by
  have hleaf {x : Lex Token} (h : Gives x Plain) : Gives x Token.Shut := h.mono fun _ h => .of_leaf h.1
  apply gives_bind
  intro l
  have hbegins := arm_begins l.inExpr l.suppressNewline l.rest
  split
  · exact gives_eofOrUnterminated
  · exact hleaf (gives_bind fun _ => gives_pure ⟨rfl, rfl⟩)
  · exact hleaf (gives_bind fun _ => gives_scanQuoted)
  · exact hleaf gives_scanSeparator
  · next kind _ => exact hleaf (gives_bind fun _ => gives_bind fun _ => gives_pure (left_plain kind))
  · exact hleaf gives_closeDelim
  · next token harm =>
    rw [harm] at hbegins
    obtain ⟨_, _, _, _, hisLeaf, hproper, _⟩ := hbegins
    exact hleaf (gives_bind fun _ => gives_pure ⟨hisLeaf, hproper⟩)
  · exact gives_bind fun _ => gives_bind fun _ => gives_bind fun _ => gives_fail
  · apply gives_bind
    intro _
    apply (gives_scanDollar hgroup).bind
    intro token htoken
    apply gives_bind
    intro l
    cases token with
    | none => exact gives_fail
    | some token => exact gives_pure (htoken token rfl).2
  · exact hleaf gives_scanQuoted
  · exact gives_bind fun _ => gives_bind fun _ =>
      (gives_doubleQuotedLoop hgroup _ .nil).bind fun _ hparts => gives_pure (.doubleQuoted hparts)
  · exact hleaf gives_scanRedirectGt
  · exact hleaf gives_scanRedirectLt
  · exact hleaf gives_scanFdRedirect
  · exact hleaf (gives_bind fun _ => gives_pure ⟨rfl, rfl⟩)
  · exact hleaf gives_scanTag
  · exact hleaf gives_scanNumeralWord
  · exact hleaf gives_scanBareWord
  · exact gives_bind fun _ => gives_fail

theorem gives_nextToken (hgroup : GroupsSealed group) {rules : PathRules} :
    Gives (nextToken eof group rules) fun l => l.token.Shut := by
  apply gives_bind
  intro _
  apply gives_bind
  intro l
  apply (gives_scanToken hgroup).bind
  intro token htoken
  apply gives_bind
  intro l'
  exact gives_pure htoken

theorem gives_groupLoop (hgroup : GroupsSealed group) {rules : PathRules} {depth : ℕ} (fuel : ℕ)
    {tokens : List Lexeme} (h : Sealed tokens) :
    Gives (groupLoop (nextToken eof group rules) depth fuel tokens) fun r => Sealed r.1 := by
  induction fuel generalizing tokens with
  | zero => exact gives_stuck
  | succ fuel ih =>
    apply (gives_nextToken hgroup).bind
    intro lexeme hlexeme
    apply gives_bind
    intro l
    refine gives_ite (gives_pure h) ?_
    split
    · exact gives_bind fun _ => gives_pure h
    · next hproper => exact ih (h.snoc (Bool.eq_false_iff.mpr hproper) hlexeme)

theorem groupsSealed_scanTokenGroup {rules : PathRules} (nesting : ℕ) :
    GroupsSealed (scanTokenGroup eof rules nesting) := by
  induction nesting with
  | zero => exact fun _ _ => gives_bind fun _ => gives_stuck
  | succ nesting ih => exact fun _ _ => gives_bind fun _ => gives_bind fun _ => gives_groupLoop ih _ .nil

theorem gives_tokenizeLoop (hgroup : GroupsSealed group) {rules : PathRules} (fuel : ℕ)
    {tokens : List Lexeme} (h : ∀ l ∈ tokens, l.token.Shut) :
    Gives (tokenizeLoop (nextToken eof group rules) fuel tokens) fun tokens =>
      ∀ l ∈ tokens, l.token.Shut := by
  induction fuel generalizing tokens with
  | zero => exact gives_stuck
  | succ fuel ih =>
    apply (gives_nextToken hgroup).bind
    intro lexeme hlexeme
    have hsnoc : ∀ l ∈ tokens ++ [lexeme], l.token.Shut := by
      intro l hl
      rcases List.mem_append.mp hl with hl | hl
      · exact h l hl
      · rwa [List.mem_singleton.mp hl]
    exact gives_ite (gives_pure hsnoc) (ih hsnoc)

end Nested

end Lex

/-! ## The whole source -/

/-- What is nested in the tokens of a source holds no end mark. -/
theorem tokenize_sealed {rules : PathRules} {eof : EofPolicy} {source : String} {lexed : OpenLexemes}
    (h : tokenize rules eof source = some (.ok lexed)) :
    ∀ inner, Within inner lexed.tokens → inner = lexed.tokens ∨ Sealed inner := by
  have hshut : ∀ l ∈ lexed.tokens, l.token.Shut := by
    unfold tokenize at h
    dsimp only at h
    split at h
    · cases h
    split at h
    · cases h
    obtain ⟨⟨r, l⟩, hrun, he⟩ := Option.map_eq_some_iff.mp h
    cases r with
    | error e => cases he
    | ok tokens =>
      cases he
      exact (Lex.gives_tokenizeLoop (Lex.groupsSealed_scanTokenGroup _) _ (by simp)).result hrun
  intro inner hwithin
  generalize lexed.tokens = tokens at hshut hwithin
  induction hwithin with
  | refl => exact .inl rfl
  | expr _ hmem ih =>
    right
    rcases ih hshut with rfl | hsealed
    · exact hshut _ hmem _ .expr
    · exact hsealed.shut _ hmem _ .expr
  | splice _ hmem hpart ih =>
    right
    rcases ih hshut with rfl | hsealed
    · exact hshut _ hmem _ (.splice hpart)
    · exact hsealed.shut _ hmem _ (.splice hpart)

end Syntax

end Ral
