import Mathlib.Logic.Relation

/-! # Depth-first search with marks

A search over a graph follows every edge of a node, except that a node with a
mark is expanded only while the mark is new. Nodes with one mark have the same
edges. What a finished search covers is closed under the edges, so whatever it
did not meet is not reachable.
-/

namespace Ral.Search
open Relation

variable {N M : Type} {E : N → N → Prop} {mark : N → Option M} {bad : N → Prop}

/-- Explored up to the marks of `V` without meeting a bad node. -/
inductive Covered (E : N → N → Prop) (mark : N → Option M) (bad : N → Prop) (V : M → Prop) :
    N → Prop
  | marked {x : N} {m : M} (hm : mark x = some m) (hV : V m) (hb : ¬ bad x) : Covered E mark bad V x
  | through {x : N} (hb : ¬ bad x) (hs : ∀ y, E x y → Covered E mark bad V y) :
      Covered E mark bad V x

structure Grown (E : N → N → Prop) (mark : N → Option M) (bad : N → Prop) (V V' : M → Prop) :
    Prop where
  mono : ∀ m, V m → V' m
  closed : ∀ x m, mark x = some m → V' m → ¬ V m → ∀ y, E x y → Covered E mark bad V' y

variable {V V' V'' : M → Prop} {x y : N} {m : M}

theorem Covered.not_bad (h : Covered E mark bad V x) : ¬ bad x := by
  cases h with
  | marked _ _ hb => exact hb
  | through hb _ => exact hb

theorem Covered.mono (h : Covered E mark bad V x) (hV : ∀ m, V m → V' m) :
    Covered E mark bad V' x := by
  induction h with
  | marked hm hv hb => exact .marked hm (hV _ hv) hb
  | through hb _ ih => exact .through hb ih

theorem Grown.refl (V : M → Prop) : Grown E mark bad V V :=
  ⟨fun _ h => h, fun _ _ _ hm hn => (hn hm).elim⟩

theorem Grown.trans (h : Grown E mark bad V V') (h' : Grown E mark bad V' V'') :
    Grown E mark bad V V'' := by
  refine ⟨fun m hm => h'.mono m (h.mono m hm), fun x m hx hm hn y hy => ?_⟩
  by_cases hm' : V' m
  · exact (h.closed x m hx hm' hn y hy).mono h'.mono
  · exact h'.closed x m hx hm hm' y hy

/-- A new mark, once everything below its nodes is covered. -/
theorem Grown.visit (hV : ∀ m', V' m' ↔ m' = m ∨ V m') (h : Grown E mark bad V' V'')
    (hm : ∀ x, mark x = some m → ∀ y, E x y → Covered E mark bad V'' y) :
    Grown E mark bad V V'' := by
  refine ⟨fun m' hm' => h.mono m' ((hV m').mpr (Or.inr hm')), fun x m' hx hm' hn y hy => ?_⟩
  by_cases he : m' = m
  · subst he
    exact hm x hx y hy
  · refine h.closed x m' hx hm' (fun hv => ?_) y hy
    rcases (hV m').mp hv with h' | h'
    · exact he h'
    · exact hn h'

/-- A finished search met everything reachable. -/
theorem Grown.not_bad (h : Grown E mark bad (fun _ => False) V) (hx : Covered E mark bad V x)
    (hxy : ReflTransGen E x y) : ¬ bad y := by
  have hcov : Covered E mark bad V y := by
    induction hxy with
    | refl => exact hx
    | tail _ hyz ih =>
      cases ih with
      | marked hm hv _ => exact h.closed _ _ hm hv (fun hf => hf) _ hyz
      | through _ hs => exact hs _ hyz
  exact hcov.not_bad

end Ral.Search
