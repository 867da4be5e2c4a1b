import Ral.Syntax.Brackets
import Ral.Syntax.Tiling

/-! # Nested spans

The tokens of a stream lie in order within it, and what nests in a token lies within the token.
-/

namespace Ral.Syntax
open Text (size size_append)

/-- A span within another. -/
structure Span.Inside (a b : Span) : Prop where
  start : b.start ≤ a.start
  ordered : a.start ≤ a.stop
  stop : a.stop ≤ b.stop

theorem Span.Inside.trans {a b c : Span} (h : a.Inside b) (h' : b.Inside c) : a.Inside c :=
  ⟨le_trans h'.start h.start, h.ordered, le_trans h.stop h'.stop⟩

theorem Span.Inside.widen {a : Span} {start stop stop' : ℕ} (h : a.Inside ⟨start, stop⟩)
    (hstop : stop ≤ stop') : a.Inside ⟨start, stop'⟩ := ⟨h.start, h.ordered, le_trans h.stop hstop⟩

/-- Tokens in order within `whole`, the streams nested in one within it. -/
inductive Laid : Span → List Lexeme → Prop
  | intro {whole : Span} {tokens : List Lexeme} :
      tokens.Pairwise (fun a b => a.span.stop ≤ b.span.start) →
      (∀ l ∈ tokens, l.span.Inside whole) →
      (∀ body span, .mk (.expr body) span ∈ tokens → Laid span body) →
      (∀ parts span, .mk (.doubleQuoted parts) span ∈ tokens → ∀ part ∈ parts, part.1.Inside span) →
      (∀ parts span, .mk (.doubleQuoted parts) span ∈ tokens → ∀ at' inner,
        (at', .splice inner) ∈ parts → Laid at' inner) → Laid whole tokens

namespace Laid
variable {whole : Span} {tokens : List Lexeme}

theorem ordered (h : Laid whole tokens) : tokens.Pairwise fun a b => a.span.stop ≤ b.span.start := by
  cases h with
  | intro hordered _ _ _ _ => exact hordered

theorem inside (h : Laid whole tokens) : ∀ l ∈ tokens, l.span.Inside whole := by
  cases h with
  | intro _ hinside _ _ _ => exact hinside

theorem expr (h : Laid whole tokens) {body : List Lexeme} {span : Span}
    (hmem : .mk (.expr body) span ∈ tokens) : Laid span body := by
  cases h with
  | intro _ _ hexpr _ _ => exact hexpr body span hmem

theorem part (h : Laid whole tokens) {parts : List (Span × StringPart)} {span : Span}
    (hmem : .mk (.doubleQuoted parts) span ∈ tokens) : ∀ part ∈ parts, part.1.Inside span := by
  cases h with
  | intro _ _ _ hpart _ => exact hpart parts span hmem

theorem splice (h : Laid whole tokens) {parts : List (Span × StringPart)} {span at' : Span}
    {inner : List Lexeme} (hmem : .mk (.doubleQuoted parts) span ∈ tokens)
    (hpart : (at', .splice inner) ∈ parts) : Laid at' inner := by
  cases h with
  | intro _ _ _ _ hsplice => exact hsplice parts span hmem at' inner hpart

theorem mono {whole' : Span} (h : Laid whole tokens) (hin : whole'.start ≤ whole.start)
    (hout : whole.stop ≤ whole'.stop) : Laid whole' tokens := by
  refine .intro h.ordered ?_ (fun _ _ => h.expr) (fun _ _ => h.part) (fun _ _ hmem _ _ => h.splice hmem)
  intro l hl
  have hl := h.inside l hl
  exact ⟨le_trans hin hl.start, hl.ordered, le_trans hl.stop hout⟩

end Laid

/-- What nests in a token lies within the token's span. -/
structure Token.Holds (token : Token) (span : Span) : Prop where
  expr : ∀ body, token = .expr body → Laid span body
  part : ∀ parts, token = .doubleQuoted parts → ∀ part ∈ parts, part.1.Inside span
  splice : ∀ parts, token = .doubleQuoted parts → ∀ at' inner, (at', .splice inner) ∈ parts →
    Laid at' inner

theorem Token.Holds.of_leaf {token : Token} {span : Span} (h : token.isLeaf = true) :
    token.Holds span := by
  constructor
  · intro body he
    subst he
    cases h
  · intro parts he
    subst he
    cases h
  · intro parts he
    subst he
    cases h

/-- One more token after the others. -/
theorem Laid.snoc {whole span : Span} {tokens : List Lexeme} {token : Token} (h : Laid whole tokens)
    (hspan : span.start ≤ span.stop) (hnext : whole.stop ≤ span.start)
    (hwhole : whole.start ≤ whole.stop) (hholds : token.Holds span) :
    Laid ⟨whole.start, span.stop⟩ (tokens ++ [.mk token span]) := by
  have hmono : Laid ⟨whole.start, span.stop⟩ tokens :=
    h.mono (le_refl _) (le_trans hnext hspan)
  constructor
  · apply List.pairwise_append.mpr
    refine ⟨h.ordered, List.pairwise_singleton _ _, ?_⟩
    intro a ha b hb
    rw [List.mem_singleton.mp hb]
    exact le_trans (h.inside a ha).stop hnext
  · intro l hl
    rcases List.mem_append.mp hl with hl | hl
    · exact hmono.inside l hl
    · rw [List.mem_singleton.mp hl]
      exact ⟨le_trans hwhole hnext, hspan, le_refl _⟩
  · intro body span' hmem
    rcases List.mem_append.mp hmem with hmem | hmem
    · exact h.expr hmem
    · cases List.mem_singleton.mp hmem
      exact hholds.expr body rfl
  · intro parts span' hmem
    rcases List.mem_append.mp hmem with hmem | hmem
    · exact h.part hmem
    · cases List.mem_singleton.mp hmem
      exact hholds.part parts rfl
  · intro parts span' hmem at' inner hpart
    rcases List.mem_append.mp hmem with hmem | hmem
    · exact h.splice hmem hpart
    · cases List.mem_singleton.mp hmem
      exact hholds.splice parts rfl at' inner hpart

mutual

theorem Stream.laid {delims delims' : List DelimKind} {pos : ℕ} {text : List Char}
    {tokens : List Lexeme} (h : Stream delims pos text tokens delims') :
    Laid ⟨pos, pos + size text⟩ tokens :=
  match h with
  | .nil => .intro .nil (by simp) (by simp) (by simp) (by simp)
  | .snoc h _ hread _ => by
    have hlaid := h.laid
    have hholds := hread.holds
    simp only [size_append] at hholds ⊢
    rw [show pos + (size _ + size _) + size _ = _ from Nat.add_assoc ..] at hholds
    exact hlaid.snoc (by simp only; omega) (by simp only; omega) (by simp) hholds

theorem ReadAt.holds {delims : List DelimKind} {pos : ℕ} {text : List Char} {token : Token}
    (h : ReadAt delims pos text token) : token.Holds ⟨pos, pos + size text⟩ :=
  match h with
  | .leaf hleaf _ _ => .of_leaf hleaf
  | .expr _ hstream _ _ => by
    have hlaid := hstream.laid
    refine ⟨?_, by simp, by simp⟩
    intro body he
    cases he
    apply hlaid.mono
    · simp
    · simp only [List.cons_append, Text.size_cons, size_append]
      have hdollar : Char.utf8Size '$' = 1 := by decide
      have hbracket : Char.utf8Size '[' = 1 := by decide
      omega
  | .doubleQuoted hparts _ => by
    obtain ⟨hinside, hsplice⟩ := hparts.laid
    refine ⟨by simp, ?_, ?_⟩
    · intro parts he part hmem
      cases he
      have hpart := hinside part hmem
      refine ⟨?_, hpart.ordered, le_trans hpart.stop ?_⟩
      · exact le_trans (Nat.le_succ _) hpart.start
      · simp only [List.cons_append, Text.size_cons, size_append]
        have hquote : Char.utf8Size '"' = 1 := by decide
        omega
    · intro parts he at' inner hmem
      cases he
      exact hsplice at' inner hmem

theorem Parts.laid {delims : List DelimKind} {pos : ℕ} {text : List Char}
    {parts : List (Span × StringPart)} (h : Parts delims pos text parts) :
    (∀ part ∈ parts, part.1.Inside ⟨pos, pos + size text⟩) ∧
      ∀ at' inner, (at', .splice inner) ∈ parts → Laid at' inner :=
  match h with
  | .nil => by simp
  | .continuation h _ => by
    obtain ⟨hinside, hsplice⟩ := h.laid
    refine ⟨fun part hmem => ?_, hsplice⟩
    exact (hinside part hmem).widen (by simp)
  | .literal h _ => by
    obtain ⟨hinside, hsplice⟩ := h.laid
    constructor
    · intro part hmem
      rcases List.mem_append.mp hmem with hmem | hmem
      · exact (hinside part hmem).widen (by simp)
      · rw [List.mem_singleton.mp hmem]
        exact ⟨by simp, by simp, by simp⟩
    · intro at' inner hmem
      rcases List.mem_append.mp hmem with hmem | hmem
      · exact hsplice at' inner hmem
      · cases List.mem_singleton.mp hmem
  | .splice h hstream _ _ => by
    obtain ⟨hinside, hsplice⟩ := h.laid
    have hlaid := hstream.laid
    constructor
    · intro part hmem
      rcases List.mem_append.mp hmem with hmem | hmem
      · exact (hinside part hmem).widen (by simp)
      · rw [List.mem_singleton.mp hmem]
        refine ⟨by simp, ?_, by simp⟩
        simp only [size_append]
        omega
    · intro at' inner hmem
      rcases List.mem_append.mp hmem with hmem | hmem
      · exact hsplice at' inner hmem
      · cases List.mem_singleton.mp hmem
        apply hlaid.mono
        · simp
        · simp only [size_append]
          omega

end

/-! ## Where trees lie

The spans of a tree: every node's lies within the source and holds those of its children. A
curried lambda's wrapper statements borrow theirs.
-/

open Ir (Redirects)

/-! ## Children -/

def redirectOperands {α : Type} (r : Redirects α) : List α :=
  (match r.stdin with
    | some (.file t) => [t]
    | some (.here t) => [t]
    | none => []) ++
  (match r.stdout with
    | some (_, t) => [t]
    | none => []) ++
  (match r.stderr with
    | some (.file _ t) => [t]
    | _ => [])

namespace Ast

/-- The spans right below a node that no tree stands under. -/
def marks : Ast → List Span
  | .let' pattern _ => [pattern.span]
  | .call head _ => [head.span]
  | .lambda param _ => [param.span]
  | .record entries => entries.filterMap fun
      | .field key _ => some key.span
      | .spread _ => none
  | .case _ arms => arms.map fun arm => arm.tag.span
  | .index _ keys => keys.map Spanned.span
  | _ => []

def spanned : Ast → List (Spanned Ast)
  | .let' _ value => [value]
  | .return' value => value.toList
  | .call head args =>
    match head.item with
    | .value tree => ⟨head.span, tree⟩ :: args
    | _ => args
  | .redirected stage _ => [stage]
  | .scope (.within opts handlers _) =>
    opts.map Prod.snd ++ (handlers.getD []).map HandlerArm.value
  | .scope (.grant caps _) => caps.map Prod.snd
  | .scope (.spawn title _) => title.toList
  | .pipeline stages => stages
  | .chain arms => arms
  | .block body => body
  | .lambda _ body => body
  | .list elems => elems.map fun
      | .single item => item
      | .spread base => base
  | .record entries => entries.map fun
      | .field _ value => value
      | .spread base => base
  | .map entries => entries.flatMap fun
      | .entry key value => [key, value]
      | .spread base => [base]
  | .interpolation segments => segments
  | .tag _ payload => payload.toList
  | .case scrutinee arms => scrutinee :: arms.map CaseArm.body
  | .binary left _ right => [left, right]
  | .negate operand => [operand]
  | .not operand => [operand]
  | .and left right => [left, right]
  | .or left right => [left, right]
  | .index target keys => target :: keys.filterMap fun key =>
    match key.item with
    | .data tree => some ⟨key.span, tree⟩
    | _ => none
  | .force operand => [operand]
  | .spread operand => [operand]
  | .if' branches else' => branches.flatMap (fun branch => [branch.cond, branch.body]) ++ else'.toList
  | _ => []

/-- The trees right below a node that have none: they lie where the node does. -/
def bare : Ast → List Ast
  | .redirected _ redirects => redirectOperands redirects
  | .scope (.try' body handler) => [body, handler]
  | .scope (.guard body cleanup) => [body, cleanup]
  | .scope (.within _ _ body) => [body]
  | .scope (.grant _ body) => [body]
  | .scope (.audit body) => [body]
  | .scope (.spawn _ body) => [body]
  | .scope (.gather body) => [body]
  | _ => []

@[simp] theorem marks_list (elems : List (ListElem Ast)) : (list elems).marks = [] := rfl

@[simp] theorem marks_map (entries : List (MapEntry Ast)) : (map entries).marks = [] := rfl

@[simp] theorem marks_scope (form : ScopeAst Ast) : (scope form).marks = [] := rfl

theorem marks_record (entries : List (RecordEntry Ast)) :
    (record entries).marks = entries.filterMap fun
      | .field key _ => some key.span
      | .spread _ => none := rfl

theorem spanned_list (elems : List (ListElem Ast)) :
    (list elems).spanned = elems.map fun
      | .single item => item
      | .spread base => base := rfl

theorem spanned_record (entries : List (RecordEntry Ast)) :
    (record entries).spanned = entries.map fun
      | .field _ value => value
      | .spread base => base := rfl

theorem spanned_map (entries : List (MapEntry Ast)) :
    (map entries).spanned = entries.flatMap fun
      | .entry key value => [key, value]
      | .spread base => [base] := rfl

end Ast

/-! ## Placement -/

/-- How the wrapper statements of a curried lambda are placed: where the lambda is, as any
statement, or with the span of the first statement in what they wrap. -/
inductive Wrappers
  | contained
  | borrowed
deriving DecidableEq

/-- A tree lies within `outer`: what has a span lies within it, and so on below. -/
inductive Placed (source : Span) (wrappers : Wrappers) : Span → Ast → Prop
  | node {outer : Span} {tree : Ast} :
      (∀ span ∈ tree.marks, span.Inside outer) →
      (∀ child ∈ tree.spanned, child.span.Inside outer) →
      (∀ child ∈ tree.spanned, Placed source wrappers child.span child.item) →
      (∀ child ∈ tree.bare, Placed source wrappers outer child) → Placed source wrappers outer tree
  | curried {outer span : Span} {param inner : Spanned Ir.Pattern} {body : List Stmt} :
      wrappers = .borrowed → param.span.Inside outer → span.Inside source →
      (∀ first ∈ body.head?, first.span = span) → Placed source wrappers outer (.lambda inner body) →
      Placed source wrappers outer (.lambda param [⟨span, .lambda inner body⟩])

variable {source : Span} {wrappers : Wrappers}

theorem Placed.mono {outer outer' : Span} {tree : Ast} (h : Placed source wrappers outer tree)
    (hstart : outer'.start ≤ outer.start) (hstop : outer.stop ≤ outer'.stop) :
    Placed source wrappers outer' tree := by
  have widen {span : Span} (h : span.Inside outer) : span.Inside outer' :=
    ⟨le_trans hstart h.start, h.ordered, le_trans h.stop hstop⟩
  induction h with
  | node hmarks hspanned hplaced _ _ ih =>
    exact .node (fun span hmem => widen (hmarks span hmem))
      (fun child hmem => widen (hspanned child hmem)) hplaced
      (fun child hmem => ih child hmem hstart hstop widen)
  | curried hborrowed hparam hspan hfirst _ ih =>
    exact .curried hborrowed (widen hparam) hspan hfirst (ih hstart hstop widen)

structure PlacedIn (source : Span) (wrappers : Wrappers) (outer : Span) (child : Spanned Ast) :
    Prop where
  inside : child.span.Inside outer
  placed : Placed source wrappers child.span child.item

theorem PlacedIn.mono {outer outer' : Span} {child : Spanned Ast}
    (h : PlacedIn source wrappers outer child) (hstart : outer'.start ≤ outer.start)
    (hstop : outer.stop ≤ outer'.stop) : PlacedIn source wrappers outer' child :=
  ⟨⟨le_trans hstart h.inside.start, h.inside.ordered, le_trans h.inside.stop hstop⟩, h.placed⟩

theorem Placed.of_children {outer : Span} {tree : Ast}
    (hmarks : ∀ span ∈ tree.marks, span.Inside outer)
    (hspanned : ∀ child ∈ tree.spanned, PlacedIn source wrappers outer child)
    (hbare : ∀ child ∈ tree.bare, Placed source wrappers outer child) :
    Placed source wrappers outer tree :=
  .node hmarks (fun child hmem => (hspanned child hmem).inside)
    (fun child hmem => (hspanned child hmem).placed) hbare

end Ral.Syntax
