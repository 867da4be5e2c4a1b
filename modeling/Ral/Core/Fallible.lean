import Mathlib.Data.List.Forall2

/-! # Computations that may fail

When a computation in `Except` succeeds: for one followed by another, one for every element
of a list, and a fold that stops at the first failure.
-/

namespace Ral.Fallible

variable {ε α β : Type}

theorem map_eq_ok {f : α → β} {x : Except ε α} {b : β} :
    x.map f = .ok b ↔ ∃ a, x = .ok a ∧ f a = b := by
  cases x <;> simp [Except.map]

theorem bind_eq_ok {x : Except ε α} {f : α → Except ε β} {b : β} :
    (x >>= f) = .ok b ↔ ∃ a, x = .ok a ∧ f a = .ok b := by
  cases x <;> simp [bind, Except.bind]

theorem mapM_eq_ok {f : α → Except ε β} {l : List α} {r : List β} :
    l.mapM f = .ok r ↔ List.Forall₂ (fun a b => f a = .ok b) l r := by
  induction l generalizing r with
  | nil =>
    simp only [List.mapM_nil, pure, Except.pure, Except.ok.injEq, List.forall₂_nil_left_iff]
    exact eq_comm
  | cons a l ih =>
    rw [List.mapM_cons, bind_eq_ok, List.forall₂_cons_left_iff]
    constructor
    · intro h
      obtain ⟨b, hb, h⟩ := h
      obtain ⟨bs, hbs, he⟩ := bind_eq_ok.mp h
      cases he
      exact ⟨b, bs, hb, ih.mp hbs, rfl⟩
    · intro h
      obtain ⟨b, bs, hb, hbs, rfl⟩ := h
      exact ⟨b, hb, bind_eq_ok.mpr ⟨bs, ih.mpr hbs, rfl⟩⟩

theorem forall₂_getElem? {R : α → β → Prop} {l : List α} {r : List β} (h : List.Forall₂ R l r) {k : ℕ} {a : α}
    (hk : l[k]? = some a) : ∃ b, r[k]? = some b ∧ R a b := by
  induction h generalizing k with
  | nil => cases hk
  | cons hab _ ih =>
    cases k with
    | zero =>
      cases hk
      exact ⟨_, rfl, hab⟩
    | succ k => exact ih hk

theorem forall₂_mem_right {R : α → β → Prop} {l : List α} {r : List β} (h : List.Forall₂ R l r) {b : β} (hb : b ∈ r) :
    ∃ a ∈ l, R a b := by
  induction h with
  | nil => cases hb
  | cons hab _ ih =>
    rcases List.mem_cons.mp hb with rfl | hb
    · exact ⟨_, List.mem_cons_self, hab⟩
    · obtain ⟨a, ha, hR⟩ := ih hb
      exact ⟨a, List.mem_cons_of_mem _ ha, hR⟩

theorem forall₂_mem_left {R : α → β → Prop} {l : List α} {r : List β} (h : List.Forall₂ R l r) {a : α} (ha : a ∈ l) :
    ∃ b ∈ r, R a b := forall₂_mem_right h.flip ha

section Fold
variable {σ : Type} {step : σ → α → Except ε σ} {s t : σ}

theorem foldlM_cons_eq_ok {a : α} {l : List α} :
    (a :: l).foldlM step s = .ok t ↔ ∃ m, step s a = .ok m ∧ l.foldlM step m = .ok t := by
  rw [List.foldlM_cons, bind_eq_ok]

theorem foldlM_append_eq_ok {xs ys : List α} :
    (xs ++ ys).foldlM step s = .ok t ↔
      ∃ m, xs.foldlM step s = .ok m ∧ ys.foldlM step m = .ok t := by
  rw [List.foldlM_append, bind_eq_ok]

/-- What every step keeps, the fold keeps. -/
theorem foldlM_invariant {P : σ → Prop} {Q : α → Prop}
    (keeps : ∀ {s : σ} {a : α} {m : σ}, P s → Q a → step s a = .ok m → P m) {l : List α}
    (all : ∀ a ∈ l, Q a) (init : P s) (h : l.foldlM step s = .ok t) : P t := by
  induction l generalizing s with
  | nil => exact Except.ok.inj h ▸ init
  | cons a l ih =>
    obtain ⟨m, hstep, hrest⟩ := foldlM_cons_eq_ok.mp h
    exact ih (fun x hx => all x (List.mem_cons_of_mem _ hx))
      (keeps init (all a List.mem_cons_self) hstep) hrest

end Fold

end Ral.Fallible
