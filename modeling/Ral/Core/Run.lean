import Mathlib.Order.Nat
import Mathlib.Data.Nat.Notation

/-! # Programs on fuel

A program that threads a state, may fail keeping the state it failed in, and may
run out of fuel. Partial correctness is a postcondition on every outcome, total
correctness an outcome that every large enough amount of fuel gives.
-/

namespace Ral

/-- No result means that the fuel ran out. -/
def Run (ε σ α : Type) : Type := σ → Option (Except ε α × σ)

namespace Run

variable {ε σ τ α β : Type}

protected def pure (a : α) : Run ε σ α := fun s => some (.ok a, s)

protected def bind (x : Run ε σ α) (f : α → Run ε σ β) : Run ε σ β := fun s =>
  match x s with
  | none => none
  | some (.error e, s) => some (.error e, s)
  | some (.ok a, s) => f a s

instance : Monad (Run ε σ) where
  pure := Run.pure
  bind := Run.bind

/-- Out of fuel. -/
def stuck : Run ε σ α := fun _ => none

def fail (e : ε) : Run ε σ α := fun s => some (.error e, s)

def get : Run ε σ σ := fun s => some (.ok s, s)

def modify (f : σ → σ) : Run ε σ Unit := fun s => some (.ok (), f s)

def act (f : σ → α × σ) : Run ε σ α := fun s => some (.ok (f s).1, (f s).2)

/-- What a computation with no state of its own gave. -/
def lift (x : Option (Except ε α)) : Run ε σ α := fun s => x.map fun r => (r, s)

/-- On a part of the state. -/
def zoom (view : σ → τ) (put : τ → σ → σ) (x : Run ε τ α) : Run ε σ α := fun s =>
  (x (view s)).map fun r => (r.1, put r.2 s)

/-- The outcome as a value. -/
def attempt (x : Run ε σ α) : Run ε σ (Except ε α) := fun s => (x s).map fun r => (.ok r.1, r.2)

def ofExcept (r : Except ε α) : Run ε σ α := fun s => some (r, s)

/-- The outcome from a state of its own, without what is left of it. -/
def outcome (x : Run ε σ α) (s : σ) : Option (Except ε α) := (x s).map Prod.fst

theorem bind_eq_ok {x : Run ε σ α} {f : α → Run ε σ β} {s s' : σ} {b : β} :
    (x >>= f) s = some (.ok b, s') ↔ ∃ a t, x s = some (.ok a, t) ∧ f a t = some (.ok b, s') := by
  show Run.bind x f s = _ ↔ _
  unfold Run.bind
  constructor
  · intro h
    split at h
    · cases h
    · cases h
    · next a t hx => exact ⟨a, t, hx, h⟩
  · rintro ⟨a, t, hx, hf⟩
    simp [hx, hf]

theorem bind_eq_error {x : Run ε σ α} {f : α → Run ε σ β} {s s' : σ} {e : ε} :
    (x >>= f) s = some (.error e, s') ↔ x s = some (.error e, s') ∨
      ∃ a t, x s = some (.ok a, t) ∧ f a t = some (.error e, s') := by
  show Run.bind x f s = _ ↔ _
  unfold Run.bind
  constructor
  · intro h
    split at h
    · cases h
    · next e' t hx =>
        left
        simpa [hx] using h
    · next a t hx => exact Or.inr ⟨a, t, hx, h⟩
  · rintro (hx | ⟨a, t, hx, hf⟩)
    · simp [hx]
    · simp [hx, hf]

theorem bind_ok {x : Run ε σ α} {f : α → Run ε σ β} {s t : σ} {a : α}
    (h : x s = some (.ok a, t)) : (x >>= f) s = f a t := by
  show Run.bind x f s = _
  unfold Run.bind
  rw [h]

theorem pure_run (a : α) (s : σ) : (pure a : Run ε σ α) s = some (.ok a, s) := rfl

theorem get_bind (f : σ → Run ε σ β) (s : σ) : (get >>= f) s = f s s := rfl

theorem modify_bind (g : σ → σ) (f : Unit → Run ε σ β) (s : σ) :
    (modify g >>= f) s = f () (g s) := rfl

/-! ## Partial correctness -/

def Sat (x : Run ε σ α) (s : σ) (Q : Except ε α → σ → Prop) : Prop :=
  ∀ r s', x s = some (r, s') → Q r s'

/-- What is left to show once a first part ended in `r`. -/
def Then (f : α → Run ε σ β) (Q : Except ε β → σ → Prop) : Except ε α → σ → Prop
  | .ok a, s => Sat (f a) s Q
  | .error e, s => Q (.error e) s

theorem then_ok {f : α → Run ε σ β} {Q : Except ε β → σ → Prop} {a : α} {s : σ} :
    Then f Q (.ok a) s ↔ Sat (f a) s Q := Iff.rfl

variable {s : σ} {Q Q' : Except ε α → σ → Prop}

theorem Sat.mono {x : Run ε σ α} (h : Sat x s Q) (hq : ∀ r s', Q r s' → Q' r s') : Sat x s Q' :=
  fun r s' hx => hq r s' (h r s' hx)

theorem sat_pure {a : α} (h : Q (.ok a) s) : Sat (pure a) s Q := by
  intro r s' hx
  cases hx
  exact h

theorem sat_fail {e : ε} (h : Q (.error e) s) : Sat (fail e) s Q := by
  intro r s' hx
  cases hx
  exact h

theorem sat_stuck : Sat stuck s Q := by
  intro r s' hx
  cases hx

theorem sat_get {Q : Except ε σ → σ → Prop} (h : Q (.ok s) s) : Sat get s Q := by
  intro r s' hx
  cases hx
  exact h

theorem sat_modify {f : σ → σ} {Q : Except ε Unit → σ → Prop} (h : Q (.ok ()) (f s)) :
    Sat (modify f) s Q := by
  intro r s' hx
  cases hx
  exact h

theorem sat_act {f : σ → α × σ} (h : Q (.ok (f s).1) (f s).2) : Sat (act f) s Q := by
  intro r s' hx
  cases hx
  exact h

theorem sat_ofExcept {r : Except ε α} (h : Q r s) : Sat (ofExcept r) s Q := by
  intro r' s' hx
  cases hx
  exact h

theorem sat_lift {x : Option (Except ε α)} (h : ∀ r, x = some r → Q r s) : Sat (lift x) s Q := by
  intro r s' hx
  obtain ⟨r', hr, he⟩ := Option.map_eq_some_iff.mp hx
  cases he
  exact h r hr

theorem sat_zoom {view : σ → τ} {put : τ → σ → σ} {x : Run ε τ α}
    (h : Sat x (view s) fun r t => Q r (put t s)) : Sat (zoom view put x) s Q := by
  intro r s' hx
  obtain ⟨⟨r', t⟩, hr, he⟩ := Option.map_eq_some_iff.mp hx
  cases he
  exact h r' t hr

theorem sat_attempt {x : Run ε σ α} {Q : Except ε (Except ε α) → σ → Prop}
    (h : Sat x s fun r s' => Q (.ok r) s') : Sat (attempt x) s Q := by
  intro r s' hx
  obtain ⟨⟨r', t⟩, hr, he⟩ := Option.map_eq_some_iff.mp hx
  cases he
  exact h r' t hr

theorem sat_bind {x : Run ε σ α} {f : α → Run ε σ β} {Q : Except ε β → σ → Prop}
    (h : Sat x s (Then f Q)) : Sat (x >>= f) s Q := by
  intro r s' hx
  cases r with
  | error e =>
    rcases bind_eq_error.mp hx with hx | ⟨a, t, hx, hf⟩
    · exact h _ _ hx
    · exact h _ _ hx _ _ hf
  | ok b =>
    obtain ⟨a, t, hx, hf⟩ := bind_eq_ok.mp hx
    exact h _ _ hx _ _ hf

/-- Whatever the first part gives. -/
theorem sat_bind_all {x : Run ε σ α} {f : α → Run ε σ β} {Q : Except ε β → σ → Prop}
    (hf : ∀ a t, Sat (f a) t Q) (he : ∀ e t, Q (.error e) t) : Sat (x >>= f) s Q := by
  apply sat_bind
  intro r t _
  cases r with
  | ok a => exact hf a t
  | error e => exact he e t

/-! ## Total correctness -/

def mapError (f : ε → ε) (x : Run ε σ α) : Run ε σ α := fun s => (x s).map fun r =>
  (r.1.mapError f, r.2)

def Yields (x : Run ε σ α) (s : σ) (Q : α → σ → Prop) : Prop :=
  (∃ e s', x s = some (.error e, s')) ∨ ∃ a s', x s = some (.ok a, s') ∧ Q a s'

section Yields
variable {P P' : α → σ → Prop}

theorem Yields.mono {x : Run ε σ α} (h : Yields x s P) (hq : ∀ a s', P a s' → P' a s') :
    Yields x s P' := by
  rcases h with h | ⟨a, s', hx, hp⟩
  · exact Or.inl h
  · exact Or.inr ⟨a, s', hx, hq a s' hp⟩

theorem yields_pure {a : α} (h : P a s) : Yields (pure a : Run ε σ α) s P := Or.inr ⟨a, s, rfl, h⟩

theorem yields_fail {e : ε} : Yields (fail e : Run ε σ α) s P := Or.inl ⟨e, s, rfl⟩

theorem yields_get {P : σ → σ → Prop} (h : P s s) : Yields (get : Run ε σ σ) s P := Or.inr ⟨s, s, rfl, h⟩

theorem yields_modify {f : σ → σ} {P : Unit → σ → Prop} (h : P () (f s)) :
    Yields (modify f : Run ε σ Unit) s P := Or.inr ⟨(), f s, rfl, h⟩

theorem yields_act {f : σ → α × σ} (h : P (f s).1 (f s).2) : Yields (act f : Run ε σ α) s P :=
  Or.inr ⟨_, _, rfl, h⟩

theorem yields_bind {x : Run ε σ α} {f : α → Run ε σ β} {P : β → σ → Prop}
    (h : Yields x s fun a t => Yields (f a) t P) : Yields (x >>= f) s P := by
  rcases h with ⟨e, t, hx⟩ | ⟨a, t, hx, ⟨e, u, hf⟩ | ⟨b, u, hf, hp⟩⟩
  · exact Or.inl ⟨e, t, bind_eq_error.mpr (Or.inl hx)⟩
  · exact Or.inl ⟨e, u, bind_eq_error.mpr (Or.inr ⟨a, t, hx, hf⟩)⟩
  · exact Or.inr ⟨b, u, bind_eq_ok.mpr ⟨a, t, hx, hf⟩, hp⟩

theorem yields_ite {c : Prop} [Decidable c] {x y : Run ε σ α} (hx : c → Yields x s P)
    (hy : ¬c → Yields y s P) : Yields (if c then x else y) s P := by
  split
  · exact hx ‹_›
  · exact hy ‹_›

theorem yields_mapError {g : ε → ε} {x : Run ε σ α} (h : Yields x s P) :
    Yields (mapError g x) s P := by
  rcases h with ⟨e, t, hx⟩ | ⟨a, t, hx, hp⟩
  · exact Or.inl ⟨g e, t, by simp [mapError, hx, Except.mapError]⟩
  · exact Or.inr ⟨a, t, by simp [mapError, hx, Except.mapError], hp⟩

end Yields

/-! ## One outcome -/

def Ends (x : Run ε σ α) (s : σ) (Q : Except ε α → σ → Prop) : Prop := ∃ r s', x s = some (r, s') ∧ Q r s'

/-- What is left to show once a first part ended in `r`. -/
def After (f : α → Run ε σ β) (Q : Except ε β → σ → Prop) : Except ε α → σ → Prop
  | .ok a, s => Ends (f a) s Q
  | .error e, s => Q (.error e) s

theorem after_ok {f : α → Run ε σ β} {Q : Except ε β → σ → Prop} {a : α} {s : σ} :
    After f Q (.ok a) s ↔ Ends (f a) s Q := Iff.rfl

theorem Ends.mono {x : Run ε σ α} (h : Ends x s Q) (hq : ∀ r s', Q r s' → Q' r s') : Ends x s Q' := by
  obtain ⟨r, s', hx, hQ⟩ := h
  exact ⟨r, s', hx, hq r s' hQ⟩

theorem ends_pure {a : α} (h : Q (.ok a) s) : Ends (pure a) s Q := ⟨_, _, rfl, h⟩

theorem ends_fail {e : ε} (h : Q (.error e) s) : Ends (fail e) s Q := ⟨_, _, rfl, h⟩

theorem ends_get {Q : Except ε σ → σ → Prop} (h : Q (.ok s) s) : Ends get s Q := ⟨_, _, rfl, h⟩

theorem ends_modify {f : σ → σ} {Q : Except ε Unit → σ → Prop} (h : Q (.ok ()) (f s)) :
    Ends (modify f) s Q := ⟨_, _, rfl, h⟩

theorem ends_act {f : σ → α × σ} (h : Q (.ok (f s).1) (f s).2) : Ends (act f) s Q := ⟨_, _, rfl, h⟩

theorem ends_attempt {x : Run ε σ α} {Q : Except ε (Except ε α) → σ → Prop}
    (h : Ends x s fun r s' => Q (.ok r) s') : Ends (attempt x) s Q := by
  obtain ⟨r, s', hx, hQ⟩ := h
  exact ⟨.ok r, s', by simp [attempt, hx], hQ⟩

theorem ends_mapError {f : ε → ε} {x : Run ε σ α} (h : Ends x s fun r s' => Q (r.mapError f) s') :
    Ends (mapError f x) s Q := by
  obtain ⟨r, s', hx, hQ⟩ := h
  exact ⟨r.mapError f, s', by simp [mapError, hx], hQ⟩

theorem ends_bind {x : Run ε σ α} {f : α → Run ε σ β} {Q : Except ε β → σ → Prop}
    (h : Ends x s (After f Q)) : Ends (x >>= f) s Q := by
  obtain ⟨r, t, hx, hafter⟩ := h
  cases r with
  | error e => exact ⟨.error e, t, bind_eq_error.mpr (Or.inl hx), hafter⟩
  | ok a =>
    obtain ⟨r, s', hf, hQ⟩ := hafter
    exact ⟨r, s', (bind_ok hx).trans hf, hQ⟩

/-- The outcome of every large enough amount of fuel. -/
def Returns (x : ℕ → Run ε σ α) (s : σ) (r : Except ε α) (s' : σ) : Prop :=
  ∃ n, ∀ m, n ≤ m → x m s = some (r, s')

theorem Returns.const {x : Run ε σ α} {r : Except ε α} {s' : σ} (h : x s = some (r, s')) :
    Returns (fun _ => x) s r s' := ⟨0, fun _ _ => h⟩

/-- One unit of fuel pays for the call. -/
theorem Returns.succ {x y : ℕ → Run ε σ α} {r : Except ε α} {s' : σ}
    (h : Returns y s r s') (hx : ∀ n, x (n + 1) s = y n s) : Returns x s r s' := by
  obtain ⟨n, hn⟩ := h
  refine ⟨n + 1, fun m hm => ?_⟩
  obtain ⟨k, rfl⟩ := Nat.exists_eq_add_of_le' (Nat.le_of_add_left_le hm)
  rw [hx]
  exact hn k (by omega)

theorem Returns.bind {x : ℕ → Run ε σ α} {f : ℕ → α → Run ε σ β} {a : α} {t s' : σ}
    {r : Except ε β} (hx : Returns x s (.ok a) t) (hf : Returns (fun n => f n a) t r s') :
    Returns (fun n => x n >>= f n) s r s' := by
  obtain ⟨n, hn⟩ := hx
  obtain ⟨k, hk⟩ := hf
  refine ⟨max n k, fun m hm => ?_⟩
  have hxm := hn m (le_trans (le_max_left n k) hm)
  have hfm := hk m (le_trans (le_max_right n k) hm)
  show Run.bind (x m) (f m) s = _
  unfold Run.bind
  rw [hxm]
  exact hfm

/-! ## Frames -/

def Keeps (R : σ → σ → Prop) (x : Run ε σ α) : Prop := ∀ s, Sat x s fun _ s' => R s s'

section Keeps
variable {R : σ → σ → Prop}

theorem keeps_modify {f : σ → σ} (h : ∀ s, R s (f s)) : Keeps R (modify f : Run ε σ Unit) :=
  fun s => sat_modify (h s)

theorem keeps_act {f : σ → α × σ} (h : ∀ s, R s (f s).2) : Keeps R (act f : Run ε σ α) := fun s => sat_act (h s)

theorem keeps_attempt {x : Run ε σ α} (h : Keeps R x) : Keeps R (attempt x) := fun s => sat_attempt (h s)

theorem keeps_mapError {f : ε → ε} {x : Run ε σ α} (h : Keeps R x) : Keeps R (mapError f x) := by
  intro s r s' hx
  obtain ⟨⟨r', t⟩, hr, he⟩ := Option.map_eq_some_iff.mp hx
  cases he
  exact h s r' t hr

theorem keeps_ite {c : Prop} [Decidable c] {x y : Run ε σ α} (hx : Keeps R x) (hy : Keeps R y) :
    Keeps R (if c then x else y) := by
  split
  · exact hx
  · exact hy

variable [IsPreorder σ R]

theorem keeps_pure (a : α) : Keeps R (pure a : Run ε σ α) := fun s => sat_pure (refl_of R s)

theorem keeps_fail (e : ε) : Keeps R (fail e : Run ε σ α) := fun s => sat_fail (refl_of R s)

theorem keeps_get : Keeps R (get : Run ε σ σ) := fun s => sat_get (refl_of R s)

theorem keeps_bind {x : Run ε σ α} {f : α → Run ε σ β} (hx : Keeps R x) (hf : ∀ a, Keeps R (f a)) :
    Keeps R (x >>= f) := by
  intro s
  apply sat_bind
  intro r t ht
  have hfirst := hx s r t ht
  cases r with
  | error e => exact hfirst
  | ok a => exact (hf a t).mono fun _ _ hsecond => trans_of R hfirst hsecond

end Keeps

end Run

end Ral
