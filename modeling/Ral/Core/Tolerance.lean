import Ral.Core.Run

/-! # A strict program and its tolerant counterpart

Two programs over one state, of which the second goes on where the first fails for a
forgivable reason. Every other outcome of the first is the second's too.
-/

namespace Ral.Run

variable {ε σ τ α β : Type} {forgiven : ε → Prop} {mark : σ → τ}

/-- The outcome is no forgivable failure. -/
def Unforgiven (forgiven : ε → Prop) : Except ε α → Prop
  | .ok _ => True
  | .error e => ¬forgiven e

def Well (Q : α → σ → Prop) : Except ε α → σ → Prop
  | .ok a, s => Q a s
  | .error _, _ => False

/-- From `s`, where `x` fails forgivably, `y` gives a value that satisfies `Q`; every other outcome
they share, and a value of `x` leaves the mark of `s`. -/
structure Tolerates (forgiven : ε → Prop) (mark : σ → τ) (x y : Run ε σ α) (s : σ)
    (Q : α → σ → Prop) : Prop where
  same : ∀ r t, x s = some (r, t) → Unforgiven forgiven r → y s = some (r, t)
  marks : ∀ a t, x s = some (.ok a, t) → mark t = mark s
  goesOn : ∀ e t, x s = some (.error e, t) → forgiven e → Sat y s (Well Q)

/-! ## Programs with nothing to forgive -/

def Settled (forgiven : ε → Prop) (mark : σ → τ) (s : σ) : Except ε α → σ → Prop
  | .ok _, t => mark t = mark s
  | .error e, _ => ¬forgiven e

/-- From no state does `x` fail forgivably or change the mark. -/
def Definite (forgiven : ε → Prop) (mark : σ → τ) (x : Run ε σ α) : Prop :=
  ∀ s, Sat x s (Settled forgiven mark s)

theorem definite_pure (a : α) : Definite forgiven mark (pure a : Run ε σ α) := fun _ => sat_pure rfl

theorem definite_fail {e : ε} (h : ¬forgiven e) : Definite forgiven mark (fail e : Run ε σ α) :=
  fun _ => sat_fail h

theorem definite_stuck : Definite forgiven mark (stuck : Run ε σ α) := fun _ => sat_stuck

theorem definite_get : Definite forgiven mark (get : Run ε σ σ) := fun _ => sat_get rfl

theorem definite_modify {f : σ → σ} (h : ∀ s, mark (f s) = mark s) :
    Definite forgiven mark (modify f : Run ε σ Unit) := fun s => sat_modify (h s)

theorem definite_act {f : σ → α × σ} (h : ∀ s, mark (f s).2 = mark s) :
    Definite forgiven mark (act f : Run ε σ α) := fun s => sat_act (h s)

theorem definite_bind {x : Run ε σ α} {f : α → Run ε σ β} (hx : Definite forgiven mark x)
    (hf : ∀ a, Definite forgiven mark (f a)) : Definite forgiven mark (x >>= f) := by
  intro s
  apply sat_bind
  refine (hx s).mono ?_
  intro r t hr
  cases r with
  | error e => exact hr
  | ok a =>
    refine (hf a t).mono ?_
    intro r' u hr'
    cases r' with
    | error e => exact hr'
    | ok b => exact hr'.trans hr

theorem definite_ite {c : Prop} [Decidable c] {x y : Run ε σ α} (hx : Definite forgiven mark x)
    (hy : Definite forgiven mark y) : Definite forgiven mark (if c then x else y) := by
  split
  · exact hx
  · exact hy

/-! ## Programs that go on well -/

section Well
variable {s : σ} {Q Q' : α → σ → Prop}

theorem Well.mono {x : Run ε σ α} (h : Sat x s (Well Q)) (hq : ∀ a t, Q a t → Q' a t) :
    Sat x s (Well Q') := by
  refine Sat.mono h ?_
  intro r t hr
  cases r with
  | ok a => exact hq a t hr
  | error e => exact hr

theorem well_bind {x : Run ε σ α} {f : α → Run ε σ β} {Q : β → σ → Prop}
    (h : Sat x s (Well fun a t => Sat (f a) t (Well Q))) : Sat (x >>= f) s (Well Q) := by
  apply sat_bind
  refine h.mono ?_
  intro r t hr
  cases r with
  | ok a => exact hr
  | error e => exact absurd hr id

theorem well_get {f : σ → Run ε σ α} (h : Sat (f s) s (Well Q)) : Sat (get >>= f) s (Well Q) := h

theorem well_modify {k : σ → σ} {f : Unit → Run ε σ α} (h : Sat (f ()) (k s) (Well Q)) :
    Sat (modify k >>= f) s (Well Q) := h

theorem well_mapError {f : ε → ε} {x : Run ε σ α} (h : Sat x s (Well Q)) :
    Sat (mapError f x) s (Well Q) := by
  intro r t hx
  obtain ⟨⟨r', t'⟩, hrun, he⟩ := Option.map_eq_some_iff.mp hx
  have hr := h r' t' hrun
  cases he
  cases r' with
  | ok a => exact hr
  | error e => exact hr

end Well

/-! ## The two together -/

section Tolerates
variable {s : σ} {Q Q' : α → σ → Prop}

/-- Both come to `s'` first. -/
theorem Tolerates.after {x y x' y' : Run ε σ α} {s' : σ} (h : Tolerates forgiven mark x y s' Q)
    (hmark : mark s' = mark s) (hx : x' s = x s') (hy : y' s = y s') :
    Tolerates forgiven mark x' y' s Q := by
  constructor
  · intro r t hrun hr
    rw [hx] at hrun
    rw [hy]
    exact h.same r t hrun hr
  · intro a t hrun
    rw [hx] at hrun
    exact (h.marks a t hrun).trans hmark
  · intro e t hrun he r t' hrun'
    rw [hx] at hrun
    rw [hy] at hrun'
    exact h.goesOn e t hrun he r t' hrun'

theorem tolerates_definite {x : Run ε σ α} (h : Definite forgiven mark x) :
    Tolerates forgiven mark x x s Q :=
  ⟨fun _ _ hx _ => hx, fun _ _ hx => h s _ _ hx, fun _ _ hx he => absurd he (h s _ _ hx)⟩

theorem tolerates_pure {a : α} : Tolerates forgiven mark (pure a) (pure a) s Q :=
  tolerates_definite (definite_pure a)

theorem tolerates_stuck {y : Run ε σ α} : Tolerates forgiven mark stuck y s Q := by
  constructor <;> intro _ _ hx <;> cases hx

theorem tolerates_fail {e : ε} {y : Run ε σ α} (h : forgiven e) (hy : Sat y s (Well Q)) :
    Tolerates forgiven mark (fail e) y s Q := by
  constructor
  · intro r t hx hr
    cases hx
    exact absurd h hr
  · intro a t hx
    cases hx
  · intro _ _ _ _
    exact hy

theorem tolerates_get {f g : σ → Run ε σ α} (h : Tolerates forgiven mark (f s) (g s) s Q) :
    Tolerates forgiven mark (get >>= f) (get >>= g) s Q := h.after rfl rfl rfl

theorem tolerates_modify {k : σ → σ} {f g : Unit → Run ε σ α} (hk : mark (k s) = mark s)
    (h : Tolerates forgiven mark (f ()) (g ()) (k s) Q) :
    Tolerates forgiven mark (modify k >>= f) (modify k >>= g) s Q := h.after hk rfl rfl

theorem tolerates_act {k : σ → β × σ} {f g : β → Run ε σ α} (hk : mark (k s).2 = mark s)
    (h : Tolerates forgiven mark (f (k s).1) (g (k s).1) (k s).2 Q) :
    Tolerates forgiven mark (act k >>= f) (act k >>= g) s Q := h.after hk rfl rfl

theorem tolerates_bind {x y : Run ε σ α} {f g : α → Run ε σ β} {P : α → σ → Prop}
    {Q : β → σ → Prop} (h : Tolerates forgiven mark x y s P)
    (hf : ∀ a t, x s = some (.ok a, t) → Tolerates forgiven mark (f a) (g a) t Q)
    (hg : ∀ a t, P a t → Sat (g a) t (Well Q)) :
    Tolerates forgiven mark (x >>= f) (y >>= g) s Q := by
  constructor
  · intro r t hrun hr
    cases r with
    | ok b =>
      obtain ⟨a, u, hx, hfa⟩ := bind_eq_ok.mp hrun
      have hy := h.same _ _ hx trivial
      exact (bind_ok hy).trans ((hf a u hx).same _ _ hfa hr)
    | error e =>
      rcases bind_eq_error.mp hrun with hx | ⟨a, u, hx, hfa⟩
      · exact bind_eq_error.mpr (Or.inl (h.same _ _ hx hr))
      · have hy := h.same _ _ hx trivial
        exact (bind_ok hy).trans ((hf a u hx).same _ _ hfa hr)
  · intro b t hrun
    obtain ⟨a, u, hx, hfa⟩ := bind_eq_ok.mp hrun
    exact ((hf a u hx).marks b t hfa).trans (h.marks a u hx)
  · intro e t hrun he
    rcases bind_eq_error.mp hrun with hx | ⟨a, u, hx, hfa⟩
    · exact well_bind (Well.mono (h.goesOn e t hx he) hg)
    · have hy := h.same _ _ hx trivial
      intro r t' hrun'
      rw [bind_ok hy] at hrun'
      exact (hf a u hx).goesOn e t hfa he r t' hrun'

theorem tolerates_mapError {f : ε → ε} {x y : Run ε σ α} (hf : ∀ e, forgiven (f e) ↔ forgiven e)
    (h : Tolerates forgiven mark x y s Q) :
    Tolerates forgiven mark (mapError f x) (mapError f y) s Q := by
  constructor
  · intro r t hrun hr
    obtain ⟨⟨r', t'⟩, hx, he⟩ := Option.map_eq_some_iff.mp hrun
    cases he
    have hr' : Unforgiven forgiven r' := by
      cases r' with
      | ok a => trivial
      | error e => exact fun hforgiven => hr ((hf e).mpr hforgiven)
    simp only [mapError, h.same _ _ hx hr', Option.map_some]
  · intro a t hrun
    obtain ⟨⟨r', t'⟩, hx, he⟩ := Option.map_eq_some_iff.mp hrun
    cases r' with
    | error e => cases he
    | ok a' =>
      cases he
      exact h.marks _ _ hx
  · intro e t hrun he
    obtain ⟨⟨r', t'⟩, hx, heq⟩ := Option.map_eq_some_iff.mp hrun
    cases r' with
    | ok a => cases heq
    | error e' =>
      cases heq
      exact well_mapError (h.goesOn e' t' hx ((hf e').mp he))

end Tolerates

end Ral.Run
