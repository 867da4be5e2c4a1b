import Mathlib.Data.List.Pairwise
import Mathlib.Order.Lattice
import Mathlib.Data.Nat.Notation

/-! # Binary search in a slice

The loop keeps one half of the slice until a single place is left, and only then
asks whether the key stands there. In an ascending slice the answer is the place of
the key, or the place that keeps the slice ascending.
-/

namespace Ral

variable {κ : Type} [LinearOrder κ]

/-- The place the halves close in on. -/
def narrow (xs : List κ) (k : κ) (base size : ℕ) : ℕ :=
  if 1 < size then
    let mid := base + size / 2
    narrow xs k (if xs[mid]?.any (k < ·) then base else mid) (size - size / 2)
  else base
termination_by size
decreasing_by omega

/-- Where a key stands, or where it would go. -/
def binarySearch (xs : List κ) (k : κ) : Except ℕ ℕ :=
  match xs[narrow xs k 0 xs.length]? with
  | none => .error 0
  | some x =>
    if x = k then .ok (narrow xs k 0 xs.length)
    else .error (narrow xs k 0 xs.length + if x < k then 1 else 0)

/-- Everything left of `base` is below the key, everything from the end on above it. -/
structure Brackets (xs : List κ) (k : κ) (base size : ℕ) : Prop where
  nonempty : 0 < size
  inside : base + size ≤ xs.length
  /-- The first of the kept places is not above the key, or nothing was dropped before it. -/
  before : base = 0 ∨ ∃ x, xs[base]? = some x ∧ x ≤ k
  after : ∀ i x, base + size ≤ i → xs[i]? = some x → k < x

theorem brackets_all {xs : List κ} (k : κ) (h : xs ≠ []) : Brackets xs k 0 xs.length where
  nonempty := List.length_pos_iff.mpr h
  inside := by omega
  before := Or.inl rfl
  after i x hi hx := by
    have := (List.getElem?_eq_some_iff.mp hx).1
    omega

theorem get_lt_get {xs : List κ} (sorted : xs.Pairwise (· < ·)) {i j : ℕ} {x y : κ} (hij : i < j)
    (hx : xs[i]? = some x) (hy : xs[j]? = some y) : x < y := by
  obtain ⟨hi, rfl⟩ := List.getElem?_eq_some_iff.mp hx
  obtain ⟨hj, rfl⟩ := List.getElem?_eq_some_iff.mp hy
  exact List.pairwise_iff_getElem.mp sorted i j hi hj hij

theorem Brackets.halve {xs : List κ} {k : κ} {base size : ℕ} (b : Brackets xs k base size)
    (sorted : xs.Pairwise (· < ·)) (more : 1 < size) :
    Brackets xs k (if xs[base + size / 2]?.any (k < ·) then base else base + size / 2)
      (size - size / 2) := by
  have hin := b.inside
  have hmid : base + size / 2 < xs.length := by omega
  have hx : xs[base + size / 2]? = some xs[base + size / 2] := List.getElem?_eq_getElem hmid
  by_cases above : k < xs[base + size / 2]
  · have hany : xs[base + size / 2]?.any (k < ·) = true := by simp [hx, above]
    rw [if_pos hany]
    refine ⟨by omega, by omega, b.before, fun i x hi hget => ?_⟩
    -- the odd place between the halves is the middle itself
    by_cases hm : i = base + size / 2
    · subst hm
      rw [hx] at hget
      cases hget
      exact above
    · exact lt_trans above (get_lt_get sorted (by omega) hx hget)
  · have hany : ¬ xs[base + size / 2]?.any (k < ·) = true := by simpa [hx] using above
    rw [if_neg hany]
    refine ⟨by omega, by omega, Or.inr ⟨_, hx, not_lt.mp above⟩, fun i x hi hget => ?_⟩
    exact b.after i x (by omega) hget

theorem Brackets.narrow {xs : List κ} {k : κ} {base size : ℕ} (b : Brackets xs k base size)
    (sorted : xs.Pairwise (· < ·)) : Brackets xs k (narrow xs k base size) 1 := by
  induction size using Nat.strongRecOn generalizing base with
  | ind size ih =>
    rw [Ral.narrow]
    by_cases more : 1 < size
    · rw [if_pos more]
      exact ih (size - size / 2) (by omega) (b.halve sorted more)
    · rw [if_neg more]
      have := b.nonempty
      have hone : size = 1 := by omega
      subst hone
      exact b

/-- A key that is found stands at the place returned. -/
theorem binarySearch_ok {xs : List κ} {k : κ} {i : ℕ} (h : binarySearch xs k = .ok i) :
    xs[i]? = some k := by
  unfold binarySearch at h
  cases hx : xs[Ral.narrow xs k 0 xs.length]? with
  | none => simp [hx] at h
  | some x =>
    simp only [hx] at h
    by_cases heq : x = k
    · rw [if_pos heq] at h
      cases h
      rw [hx, heq]
    · rw [if_neg heq] at h
      cases h

/-- A key that is not found would go between what is below it and what is above. -/
theorem binarySearch_error {xs : List κ} {k : κ} {i : ℕ} (sorted : xs.Pairwise (· < ·))
    (h : binarySearch xs k = .error i) :
    i ≤ xs.length ∧ (∀ j x, j < i → xs[j]? = some x → x < k) ∧ ∀ j x, i ≤ j → xs[j]? = some x → k < x := by
  by_cases hnil : xs = []
  · subst hnil
    cases h
    simp
  have b := (brackets_all k hnil).narrow sorted
  have hin := b.inside
  obtain ⟨x, hx⟩ : ∃ x, xs[Ral.narrow xs k 0 xs.length]? = some x :=
    ⟨_, List.getElem?_eq_getElem (by omega)⟩
  unfold binarySearch at h
  generalize Ral.narrow xs k 0 xs.length = r at *
  simp only [hx] at h
  by_cases heq : x = k
  · rw [if_pos heq] at h
    cases h
  rw [if_neg heq] at h
  by_cases below : x < k
  · rw [if_pos below] at h
    cases h
    refine ⟨by omega, fun j y hj hy => ?_, fun j y hj hy => b.after j y hj hy⟩
    by_cases hjr : j = r
    · subst hjr
      rw [hx] at hy
      cases hy
      exact below
    · exact lt_trans (get_lt_get sorted (by omega) hy hx) below
  · rw [if_neg below] at h
    cases h
    have above : k < x := lt_of_le_of_ne (not_lt.mp below) fun he => heq he.symm
    -- then nothing was dropped on the left, for the place kept is above the key
    have hzero : r = 0 := by
      rcases b.before with h0 | ⟨y, hy, hle⟩
      · exact h0
      · rw [hx] at hy
        cases hy
        exact absurd hle (not_le.mpr above)
    subst hzero
    refine ⟨by omega, fun j y hj _ => by omega, fun j y _ hy => ?_⟩
    by_cases hj : j = 0
    · subst hj
      rw [hx] at hy
      cases hy
      exact above
    · exact lt_trans above (get_lt_get sorted (by omega) hx hy)

/-- The search finds exactly the keys of the slice. -/
theorem binarySearch_isOk {xs : List κ} (sorted : xs.Pairwise (· < ·)) (k : κ) :
    (∃ i, binarySearch xs k = .ok i) ↔ k ∈ xs := by
  constructor
  · intro ⟨i, hi⟩
    exact List.mem_of_getElem? (binarySearch_ok hi)
  · intro hk
    cases h : binarySearch xs k with
    | ok i => exact ⟨i, rfl⟩
    | error i =>
      obtain ⟨j, hj⟩ := List.mem_iff_getElem?.mp hk
      obtain ⟨-, below, above⟩ := binarySearch_error sorted h
      by_cases hji : j < i
      · exact absurd (below j k hji hj) (lt_irrefl k)
      · exact absurd (above j k (Nat.le_of_not_lt hji) hj) (lt_irrefl k)

end Ral
