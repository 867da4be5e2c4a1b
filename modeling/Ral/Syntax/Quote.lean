import Mathlib.Data.List.Infix
import Ral.Syntax.Lossless

/-! # Quoting

A string as source text that is read back as one token.
-/

namespace Ral.Syntax

/-! ## Bare words -/

def lex (rules : PathRules) (source : String) : Option (Except LexError (List Lexeme)) :=
  (tokenize rules .requireClosed source).map fun r => r.map OpenLexemes.tokens

/-- Whether `s` is read as one bare word, and as the string `s`. A `,` stays inside a word at top
level and punctuates inside `[…]`, so it forces quoting. -/
def isBareWord (rules : PathRules) (s : String) : Bool :=
  if s = "" || ',' ∈ s.toList || (WordLiteral.classify s.toList).isSome then false
  else match lex rules s with
    | some (.ok tokens) =>
      match tokens.filter fun l => !l.token.isEof with
      | [.mk (.word (.plain w)) _] => w = s
      | [.mk (.word (.path w)) _] => w = s
      | _ => false
    | _ => false

/-! ## Raw strings -/

def occursIn (pattern : List Char) (body : List Char) : Bool :=
  body.tails.any fun tail => pattern.isPrefixOf tail

/-- Whether a raw fence of `level` hashes admits `body` without either fence inside it. -/
def fenceAdmits (body : List Char) (level : ℕ) : Bool :=
  !occursIn (List.replicate level '#' ++ ['\'']) body &&
    !occursIn ('\'' :: List.replicate level '#') body

def fenceLevel (body : List Char) : ℕ → ℕ → ℕ
  | 0, level => level
  | fuel + 1, level => if fenceAdmits body level then level else fenceLevel body fuel (level + 1)

theorem occursIn_iff {pattern body : List Char} : occursIn pattern body = true ↔ pattern <:+: body := by
  simp [occursIn, List.infix_iff_prefix_suffix, and_comm]

theorem fenceAdmits_iff {body : List Char} {level : ℕ} : fenceAdmits body level = true ↔
    ¬List.replicate level '#' ++ ['\''] <:+: body ∧ ¬ ('\'' :: List.replicate level '#') <:+: body := by
  simp only [fenceAdmits, Bool.and_eq_true, Bool.not_eq_true', Bool.eq_false_iff, ne_eq, occursIn_iff]

theorem fenceAdmits_fenceLevel {body : List Char} (fuel level : ℕ) (h : body.length ≤ level + fuel) :
    fenceAdmits body (fenceLevel body fuel level) = true := by
  induction fuel generalizing level with
  | zero =>
    apply fenceAdmits_iff.mpr
    constructor
    · intro hinfix
      have hlen := hinfix.length_le
      simp only [List.length_append, List.length_replicate, List.length_singleton] at hlen
      exact absurd hlen (by simp only [fenceLevel]; omega)
    · intro hinfix
      have hlen := hinfix.length_le
      simp only [List.length_cons, List.length_replicate] at hlen
      exact absurd hlen (by simp only [fenceLevel]; omega)
  | succ fuel ih =>
    unfold fenceLevel
    split
    · assumption
    · exact ih (level + 1) (by omega)

/-! ## Escapes -/

def escapeChar (c : Char) : List Char :=
  if c ∈ ['\\', '"', '$', '!'] then ['\\', c]
  else if c = '\n' then ['\\', 'n']
  else if c = '\t' then ['\\', 't']
  else if c = '\r' then ['\\', 'r']
  else if isBidiControl c then '\\' :: 'u' :: '{' :: upperHex 0 c.toNat ++ ['}']
  else [c]

def escapeForInterpolation (s : List Char) : List Char := s.flatMap escapeChar

/-! ## Words -/

/-- `s` bare where it can be, else in a raw string, else, where the lexer refuses one of its
characters even there, in a double-quoted one. -/
def quoteWord (rules : PathRules) (s : String) : String :=
  if isBareWord rules s then s
  else if s.toList.any isBidiControl then
    let home := if s.toList.head? = some '~' then ['\\'] else []
    String.ofList ('"' :: home ++ escapeForInterpolation s.toList ++ ['"'])
  else
    let hashes := List.replicate (fenceLevel s.toList s.toList.length 0) '#'
    String.ofList (hashes ++ '\'' :: s.toList ++ '\'' :: hashes)

/-! ## Refused characters -/

theorem findBidi_eq_none {text : List Char} (h : text.any isBidiControl = false) (at' : ℕ) :
    findBidi at' text = none := by
  induction text generalizing at' with
  | nil => rfl
  | cons ch rest ih =>
    simp only [List.any_cons, Bool.or_eq_false_iff] at h
    unfold findBidi
    rw [Option.isSome_eq_false_iff.mp h.1 |> Option.isNone_iff_eq_none.mp]
    exact ih h.2 _

theorem any_bidi_of_findBidi {text : List Char} {at' : ℕ} (h : findBidi at' text = none) :
    text.any isBidiControl = false := by
  induction text generalizing at' with
  | nil => rfl
  | cons ch rest ih =>
    unfold findBidi at h
    split at h
    · cases h
    · next hnone =>
      rw [List.any_cons, ih h, Bool.or_false, isBidiControl, hnone]
      rfl

end Ral.Syntax
