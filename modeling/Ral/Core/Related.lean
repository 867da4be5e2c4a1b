import Mathlib.Data.List.Forall2
import Mathlib.Data.List.Sort

/-! # Lists related place by place

Related lists stay related when both are sorted, by orders that agree on related elements.
-/

namespace Ral.Related

variable {α β γ : Type} {R : α → β → Prop} {r : α → α → Prop} {s : β → β → Prop}
  [DecidableRel r] [DecidableRel s]

theorem orderedInsert (agree : ∀ a a' b b', R a b → R a' b' → (r a a' ↔ s b b')) {a : α} {b : β}
    (hab : R a b) {l : List α} {l' : List β} (h : List.Forall₂ R l l') :
    List.Forall₂ R (l.orderedInsert r a) (l'.orderedInsert s b) := by
  induction h with
  | nil => exact .cons hab .nil
  | @cons x y l l' hxy hrest ih =>
    by_cases hle : r a x
    · have hle' : s b y := (agree _ _ _ _ hab hxy).mp hle
      simp only [List.orderedInsert_cons, hle, hle', if_true]
      exact .cons hab (.cons hxy hrest)
    · have hle' : ¬ s b y := fun h => hle ((agree _ _ _ _ hab hxy).mpr h)
      simp only [List.orderedInsert_cons, hle, hle', if_false]
      exact .cons hxy ih

theorem insertionSort (agree : ∀ a a' b b', R a b → R a' b' → (r a a' ↔ s b b')) {l : List α}
    {l' : List β} (h : List.Forall₂ R l l') :
    List.Forall₂ R (l.insertionSort r) (l'.insertionSort s) := by
  induction h with
  | nil => exact .nil
  | cons hab _ ih => exact orderedInsert agree hab ih

theorem flatMap_eq {f : α → List γ} {g : β → List γ} (same : ∀ {a b}, R a b → f a = g b)
    {l : List α} {l' : List β} (h : List.Forall₂ R l l') : l.flatMap f = l'.flatMap g := by
  induction h with
  | nil => rfl
  | cons hab _ ih => rw [List.flatMap_cons, List.flatMap_cons, same hab, ih]

theorem exists_left {l : List α} {l' : List β} (h : List.Forall₂ R l l') {b : β} (hb : b ∈ l') :
    ∃ a ∈ l, R a b := by
  induction h with
  | nil => cases hb
  | @cons x y l l' hxy _ ih =>
    rcases List.mem_cons.mp hb with rfl | hb
    · exact ⟨x, List.mem_cons_self, hxy⟩
    · obtain ⟨a, ha, hab⟩ := ih hb
      exact ⟨a, List.mem_cons_of_mem _ ha, hab⟩

theorem exists_right {l : List α} {l' : List β} (h : List.Forall₂ R l l') {a : α} (ha : a ∈ l) :
    ∃ b ∈ l', R a b :=
  exists_left h.flip ha

/-- A list of pairs is its two columns. -/
theorem eq_of_columns {l l' : List (α × β)} (fst : l.map Prod.fst = l'.map Prod.fst)
    (snd : l.map Prod.snd = l'.map Prod.snd) : l = l' := by
  rw [← List.zip_unzip l, ← List.zip_unzip l']
  simp only [List.unzip_eq_map, fst, snd]

end Ral.Related
