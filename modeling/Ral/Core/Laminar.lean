import Mathlib.Order.Interval.Basic
import Mathlib.Data.List.MinMax

/-! # Laminar lists of intervals

Intervals in the order they were made, each covering the earlier ones it meets. The
first to cover an interval is then the least that does, and the last the greatest.
-/

namespace Ral.Intervals

variable {α : Type} [LinearOrder α]

/-- No point in common. -/
def Apart (s t : NonemptyInterval α) : Prop := s.snd < t.fst ∨ t.snd < s.fst

theorem Apart.symm {s t : NonemptyInterval α} (h : Apart s t) : Apart t s := Or.symm h

instance (s t : NonemptyInterval α) : Decidable (Apart s t) :=
  inferInstanceAs (Decidable (_ ∨ _))

/-- What lies within both of two intervals keeps them from being apart. -/
theorem not_apart_of_le {x s t : NonemptyInterval α} (hs : x ≤ s) (ht : x ≤ t) : ¬ Apart s t := by
  intro h
  have hx := x.fst_le_snd
  rcases h with h | h
  · exact absurd (lt_of_le_of_lt hs.2 h) (not_lt.mpr (ht.1.trans hx))
  · exact absurd (lt_of_le_of_lt ht.2 h) (not_lt.mpr (hs.1.trans hx))

/-- A point is within an interval or apart from it. -/
theorem apart_pure_of_not_le {a : α} {s : NonemptyInterval α}
    (h : ¬ NonemptyInterval.pure a ≤ s) : Apart (NonemptyInterval.pure a) s := by
  by_cases hlo : s.fst ≤ a
  · by_cases hhi : a ≤ s.snd
    · exact absurd ⟨hlo, hhi⟩ h
    · exact Or.inr (not_le.mp hhi)
  · exact Or.inl (not_le.mp hlo)

def Laminar (made : List (NonemptyInterval α)) : Prop :=
  made.Pairwise fun earlier later => earlier ≤ later ∨ Apart earlier later

theorem laminar_concat {made : List (NonemptyInterval α)} {s : NonemptyInterval α} :
    Laminar (made ++ [s]) ↔ Laminar made ∧ ∀ e ∈ made, e ≤ s ∨ Apart e s := by
  simp [Laminar, List.pairwise_append]

theorem Laminar.of_append {xs ys : List (NonemptyInterval α)} (h : Laminar (xs ++ ys)) :
    Laminar ys := (List.pairwise_append.mp h).2.1

/-- Of two that cover an interval, the later covers the earlier. -/
theorem Laminar.le_of_covers {xs ys : List (NonemptyInterval α)} {e x : NonemptyInterval α}
    (h : Laminar (xs ++ e :: ys)) (he : x ≤ e) {l : NonemptyInterval α} (hl : l ∈ ys)
    (hx : x ≤ l) : e ≤ l := by
  have hel := List.rel_of_pairwise_cons h.of_append hl
  rcases hel with hle | hap
  · exact hle
  · exact absurd hap (not_apart_of_le he hx)

/-- An interval whose ends cut none of those made goes on laminarly. -/
theorem settles_of_uncut {e s : NonemptyInterval α}
    (hlo : ¬ (e.fst < s.fst ∧ s.fst ≤ e.snd)) (hhi : ¬ (e.fst ≤ s.snd ∧ s.snd < e.snd)) :
    e ≤ s ∨ Apart e s := by
  by_cases hl : e.snd < s.fst
  · exact Or.inr (Or.inl hl)
  · by_cases hr : s.snd < e.fst
    · exact Or.inr (Or.inr hr)
    · left
      constructor
      · by_contra hc
        exact hlo ⟨not_le.mp hc, not_lt.mp hl⟩
      · by_contra hc
        exact hhi ⟨not_lt.mp hr, not_le.mp hc⟩

/-! ## The least cover -/

section Least
variable {β : Type} [LinearOrder β]

def least (measure : NonemptyInterval α → β) (x : NonemptyInterval α)
    (made : List (NonemptyInterval α)) : Option (NonemptyInterval α) :=
  (made.filter fun outer => decide (x ≤ outer)).argmin measure

variable {measure : NonemptyInterval α → β} {x : NonemptyInterval α}
  {made : List (NonemptyInterval α)}

theorem least_mem {o : NonemptyInterval α} (h : least measure x made = some o) :
    o ∈ made ∧ x ≤ o := by
  have hm := List.argmin_mem (Option.mem_def.mpr h)
  simpa using hm

theorem least_eq_none : least measure x made = none ↔ ∀ e ∈ made, ¬ x ≤ e := by
  simp [least, List.argmin_eq_none]

/-- Where a cover measures no less than what it covers, a later interval never displaces the
least cover. -/
theorem least_concat (mono : ∀ s t, s ≤ t → measure s ≤ measure t) {s : NonemptyInterval α}
    (h : Laminar (made ++ [s])) :
    least measure x (made ++ [s]) =
      (least measure x made).or (if x ≤ s then some s else none) := by
  unfold least
  rw [List.filter_append]
  by_cases hx : x ≤ s
  · simp only [hx, List.filter_cons_of_pos, decide_true, List.filter_nil, if_true]
    rw [List.argmin_concat]
    cases hl : (made.filter fun outer => decide (x ≤ outer)).argmin measure with
    | none => rfl
    | some o =>
      have hleast : least measure x made = some o := hl
      have ho := least_mem hleast
      have hle : o ≤ s := by
        rcases (laminar_concat.mp h).2 o ho.1 with hle | hap
        · exact hle
        · exact absurd hap (not_apart_of_le ho.2 hx)
      simp [not_lt.mpr (mono o s hle)]
  · simp [hx]

/-- The least cover is the first made. -/
theorem least_eq_find (mono : ∀ s t, s ≤ t → measure s ≤ measure t) (h : Laminar made) :
    least measure x made = made.find? fun outer => decide (x ≤ outer) := by
  induction made using List.reverseRecOn with
  | nil => rfl
  | append_singleton made s ih =>
    rw [least_concat mono h, ih (laminar_concat.mp h).1, List.find?_append]
    by_cases hx : x ≤ s <;> simp [hx]

end Least

/-! ## The greatest cover -/

theorem exists_last_cover {made : List (NonemptyInterval α)} {x : NonemptyInterval α}
    (hx : ∃ e ∈ made, x ≤ e) :
    ∃ xs e ys, made = xs ++ e :: ys ∧ x ≤ e ∧ ∀ l ∈ ys, ¬ x ≤ l := by
  induction made using List.reverseRecOn with
  | nil => simp at hx
  | append_singleton made s ih =>
    by_cases hs : x ≤ s
    · exact ⟨made, s, [], rfl, hs, by simp⟩
    · obtain ⟨e, he, hxe⟩ := hx
      have hmem : e ∈ made := by
        rcases List.mem_append.mp he with h | h
        · exact h
        · exact absurd (List.mem_singleton.mp h ▸ hxe) hs
      obtain ⟨xs, o, ys, rfl, ho, hlast⟩ := ih ⟨e, hmem, hxe⟩
      refine ⟨xs, o, ys ++ [s], by simp, ho, ?_⟩
      intro l hl
      rcases List.mem_append.mp hl with h | h
      · exact hlast l h
      · exact List.mem_singleton.mp h ▸ hs

end Ral.Intervals
