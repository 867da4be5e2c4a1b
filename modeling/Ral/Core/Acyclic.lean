import Mathlib.Data.Finset.Card
import Mathlib.Logic.Relation

/-! # Graphs that stay acyclic

A graph without infinite paths keeps none when edges are added from one class of
nodes to a node that does not reach the class. A walk that marks what it expands,
over a graph whose unmarked part has no infinite path, ends.
-/

namespace Ral.Acyclic
open Relation

variable {N M : Type} {E E' : N → N → Prop}

/-- No infinite path. -/
def Grounded (E : N → N → Prop) : Prop := WellFounded fun y x => E x y

theorem Grounded.no_cycle (h : Grounded E) {x : N} : ¬ TransGen E x x := by
  induction x using h.transGen.induction with
  | h x ih =>
    intro hx
    exact ih x (transGen_swap.mpr hx) hx

theorem Grounded.mono (h : Grounded E) (he : ∀ x y, E' x y → E x y) : Grounded E' :=
  Subrelation.wf (fun hxy => he _ _ hxy) h

/-- New edges from the class `S` to `b`, which does not reach it. -/
theorem Grounded.insert (h : Grounded E) {S : N → Prop} {b : N}
    (hnew : ∀ x y, E' x y → E x y ∨ (S x ∧ y = b)) (hb : ∀ y, ReflTransGen E b y → ¬ S y) :
    Grounded E' := by
  -- Below `b` the old edges are all there is.
  have hbelow : ∀ y, ReflTransGen E b y → Acc (fun y x => E' x y) y := by
    intro y
    induction y using h.induction with
    | h y ih =>
      intro hy
      refine ⟨y, fun z hz => ?_⟩
      rcases hnew y z hz with hz | ⟨hS, -⟩
      · exact ih z hz (hy.tail hz)
      · exact (hb y hy hS).elim
  refine ⟨fun x => ?_⟩
  induction x using h.induction with
  | h x ih =>
    refine ⟨x, fun y hy => ?_⟩
    rcases hnew x y hy with hy | ⟨-, rfl⟩
    · exact ih y hy
    · exact hbelow _ .refl

/-- New edges to a leaf reach nothing else that is new. -/
theorem reaches_of_leaf {S : N → Prop} {b : N} (hnew : ∀ x y, E' x y → E x y ∨ (S x ∧ y = b))
    (hb : ∀ y, ¬ E' b y) {x y : N} (h : ReflTransGen E' x y) : ReflTransGen E x y ∨ y = b := by
  induction h with
  | refl => exact Or.inl .refl
  | tail _ hyz ih =>
    rcases ih with ih | rfl
    · rcases hnew _ _ hyz with he | ⟨-, rfl⟩
      · exact Or.inl (ih.tail he)
      · exact Or.inr rfl
    · exact (hb _ hyz).elim

/-! ## Walks that mark what they expand -/

variable [DecidableEq M] {σ : Type}

def left (all : Finset M) (seen : σ → Finset M) (s : σ) : ℕ := (all \ seen s).card

theorem left_le {all : Finset M} {seen : σ → Finset M} {s s' : σ} (h : seen s ⊆ seen s') :
    left all seen s' ≤ left all seen s :=
  Finset.card_le_card (Finset.sdiff_subset_sdiff subset_rfl h)

theorem left_lt {all : Finset M} {seen : σ → Finset M} {s s' : σ} {m : M} (hm : m ∈ all)
    (hn : m ∉ seen s) (h : insert m (seen s) ⊆ seen s') : left all seen s' < left all seen s := by
  apply Finset.card_lt_card
  refine ⟨fun x hx => ?_, fun hsub => ?_⟩
  · rw [Finset.mem_sdiff] at hx ⊢
    exact ⟨hx.1, fun hs => hx.2 (h (Finset.mem_insert_of_mem hs))⟩
  · have hmem := hsub (Finset.mem_sdiff.mpr ⟨hm, hn⟩)
    exact (Finset.mem_sdiff.mp hmem).2 (h (Finset.mem_insert_self m _))

/-- What holds of a node once it holds of the nodes below it, with no fewer
marks, and of everything once one more mark is seen, holds of every node. -/
theorem walk_induction (hE : Grounded E) (all : Finset M) (seen : σ → Finset M)
    {P : N → σ → Prop}
    (hstep : ∀ x s, (∀ y, E x y → ∀ s', seen s ⊆ seen s' → P y s') →
      (∀ m ∈ all, m ∉ seen s → ∀ y s', insert m (seen s) ⊆ seen s' → P y s') → P x s)
    (x : N) (s : σ) : P x s := by
  have hmain : ∀ k x s, left all seen s ≤ k → P x s := by
    intro k
    induction k with
    | zero =>
      intro x
      induction x using hE.induction with
      | h x ih =>
        intro s hk
        refine hstep x s (fun y hy s' hs => ih y hy s' ((left_le hs).trans hk)) ?_
        intro m hm hn y s' hs
        have hlt := left_lt hm hn hs
        omega
    | succ k ihk =>
      intro x
      induction x using hE.induction with
      | h x ih =>
        intro s hk
        refine hstep x s (fun y hy s' hs => ih y hy s' ((left_le hs).trans hk)) ?_
        intro m hm hn y s' hs
        have hlt := left_lt hm hn hs
        exact ihk y s' (by omega)
  exact hmain _ x s (le_refl _)

end Ral.Acyclic
