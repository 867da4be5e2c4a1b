import Mathlib.Data.Nat.Notation

/-! # Precedence climbing

A reader of infix expressions takes an operand and then, for as long as the operator ahead
binds tightly enough, that operator and on its right an expression of tighter ones. It reads
what a grammar stratified by precedence derives, and nothing else.
-/

namespace Ral

/-- Infix operators `ω` between trees `τ`, read from one place `σ` to another. -/
structure Climbing (σ τ ω : Type) where
  Operand : σ → τ → σ → Prop
  ahead : σ → Option (ω × σ)
  binds : ω → ℕ
  node : τ → ω → τ → τ
  Fits : τ → ω → τ → Prop

namespace Climbing
variable {σ τ ω : Type} (g : Climbing σ τ ω)

def AtLeast (n : ℕ) (root : Option ω) : Prop := ∀ o ∈ root, n ≤ g.binds o

/-- No operator that binds so tightly is ahead. -/
def Stops (n : ℕ) (s : σ) : Prop := ∀ o t, g.ahead s = some (o, t) → g.binds o < n

/-- The operator ahead binds no more tightly than the one at the root. -/
def Follows (root : Option ω) (s : σ) : Prop :=
  ∀ o t, g.ahead s = some (o, t) → ∀ o' ∈ root, g.binds o ≤ g.binds o'

/-! ## The grammar -/

/-- A tree and the operator at its root: on the left nothing looser, on the right only tighter. -/
inductive Derives : σ → τ → Option ω → σ → Prop
  | operand {s t : σ} {x : τ} : g.Operand s x t → Derives s x none t
  | node {s m m' t : σ} {l r : τ} {a b : Option ω} {o : ω} : Derives s l a m →
      g.ahead m = some (o, m') → Derives m' r b t → (∀ o' ∈ a, g.binds o ≤ g.binds o') →
      (∀ o' ∈ b, g.binds o < g.binds o') → g.Fits l o r → Derives s (g.node l o r) (some o) t

/-! ## The reader -/

/-- The loop after a first operand, at `n` or tighter, with a left-hand side so far. -/
inductive Loops : ℕ → τ → σ → τ → σ → Prop
  | done {n : ℕ} {l : τ} {s : σ} : g.Stops n s → Loops n l s l s
  | again {n : ℕ} {l x r e : τ} {o : ω} {s m m' t u : σ} : g.ahead s = some (o, m) → n ≤ g.binds o →
      g.Operand m x m' → Loops (g.binds o + 1) x m' r t → g.Fits l o r →
      Loops n (g.node l o r) t e u → Loops n l s e u

def Climbs (n : ℕ) (s : σ) (e : τ) (u : σ) : Prop := ∃ x t, g.Operand s x t ∧ g.Loops n x t e u

variable {g} {n : ℕ} {s t u : σ} {l e : τ} {a : Option ω}

/-- Where a loop is left, unless it is left at once, an operator was ahead. -/
theorem Loops.ahead (h : g.Loops n l s e u) : s = u ∨ ∃ o t, g.ahead s = some (o, t) := by
  cases h with
  | done _ => exact .inl rfl
  | again ahead => exact .inr ⟨_, _, ahead⟩

/-- The left-hand side so far has only operators that were let in, none of them looser than
the one ahead; so has what the loop makes of it. -/
theorem Loops.derives (h : g.Loops n l s e u) : ∀ {s₀ : σ} {a : Option ω}, g.Derives s₀ l a s →
    g.AtLeast n a → g.Follows a s → ∃ b, g.Derives s₀ e b u ∧ g.AtLeast n b ∧ g.Stops n u := by
  induction h with
  | done stops => exact fun left least _ => ⟨_, left, least, stops⟩
  | @again n l x r e o s m m' t u ahead tight operand _ fits _ right rest =>
    intro s₀ a left least follows
    obtain ⟨b, derived, tighter, stops⟩ := right (.operand operand) nofun nofun
    apply rest (.node left ahead derived (follows o m ahead) (fun o' root => tighter o' root) fits)
    · intro o' root
      cases root
      exact tight
    · intro o' t' next o'' root
      cases root
      exact Nat.le_of_lt_succ (stops o' t' next)

/-- A derivation is walked down its left spine to the first operand, from where the loop comes
back up to it. -/
theorem Derives.climbs (h : g.Derives s l a t) : ∀ {n : ℕ} {e : τ} {u : σ}, g.AtLeast n a →
    g.Follows a t → g.Loops n l t e u → g.Climbs n s e u := by
  induction h with
  | operand operand => exact fun _ _ loops => ⟨_, _, operand, loops⟩
  | @node s m m' t l r a b o _ ahead _ looser tighter fits left right =>
    intro n e u least follows loops
    have tight : n ≤ g.binds o := least o rfl
    have stops : g.Stops (g.binds o + 1) t := fun o' t' next =>
      Nat.lt_succ_of_le (follows o' t' next o rfl)
    obtain ⟨x, m₁, operand, rights⟩ := right (n := g.binds o + 1) tighter
      (fun o' t' next o'' root => by
        have := follows o' t' next o rfl
        have := tighter o'' root
        omega) (.done stops)
    apply left
    · intro o' root
      have := looser o' root
      omega
    · intro o' t' next o'' root
      rw [ahead] at next
      cases next
      exact looser o'' root
    · exact .again ahead tight operand rights fits loops

/-- The reader reads what the grammar derives, as far as it goes. -/
theorem climbs_iff : g.Climbs n s e u ↔ ∃ a, g.Derives s e a u ∧ g.AtLeast n a ∧ g.Stops n u := by
  constructor
  · rintro ⟨x, t, operand, loops⟩
    exact loops.derives (.operand operand) nofun nofun
  · rintro ⟨a, derived, least, stops⟩
    apply derived.climbs least _ (.done stops)
    intro o t ahead o' root
    have := stops o t ahead
    have := least o' root
    omega

end Climbing

end Ral
