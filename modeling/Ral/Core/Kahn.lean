import Mathlib.Data.Finset.Card
import Mathlib.Data.Finset.Range

/-! # Building in dependency order

Nodes `0 … n - 1`, each built once everything it depends on is: a count of what each
still waits for, and a stack of those that wait for nothing. The loop ends whatever the
dependencies are, and has built everything unless a node waits for one never built.
-/

namespace Ral.Kahn

variable {σ ε : Type}

structure State (σ : Type) where
  waiting : ℕ → ℕ
  ready : List ℕ
  built : ℕ
  payload : σ

/-- One dependency less for each; those left with none are ready. -/
def release (s : State σ) : List ℕ → State σ
  | [] => s
  | next :: rest =>
    let left := s.waiting next - 1
    let s := { s with waiting := Function.update s.waiting next left }
    release (if left = 0 then { s with ready := next :: s.ready } else s) rest

/-- A count that would fall below zero leaves no outcome. -/
def loop (dependents : ℕ → List ℕ) (build : ℕ → σ → Except ε σ) : ℕ → State σ → Option (Except ε (State σ))
  | 0, _ => none
  | fuel + 1, s =>
    match s.ready with
    | [] => some (.ok s)
    | id :: rest =>
      match build id s.payload with
      | .error e => some (.error e)
      | .ok payload =>
        if ∀ next ∈ dependents id, 0 < s.waiting next then
          loop dependents build fuel
            (release { s with ready := rest, built := s.built + 1, payload := payload } (dependents id))
        else none

def dependents (n : ℕ) (deps : ℕ → Finset ℕ) (d : ℕ) : List ℕ := (List.range n).filter fun id => d ∈ deps id

def start (n : ℕ) (deps : ℕ → Finset ℕ) (payload : σ) : State σ where
  waiting id := (deps id).card
  ready := ((List.range n).filter fun id => (deps id).card = 0).reverse
  built := 0
  payload := payload

/-! ## Releasing -/

theorem release_spec (l : List ℕ) (hl : l.Nodup) (s : State σ) :
    (∀ x, (release s l).waiting x = if x ∈ l then s.waiting x - 1 else s.waiting x) ∧
      (∀ x, x ∈ (release s l).ready ↔ x ∈ s.ready ∨ (x ∈ l ∧ s.waiting x - 1 = 0)) ∧
      ((∀ x ∈ l, x ∉ s.ready) → s.ready.Nodup → (release s l).ready.Nodup) ∧
      (release s l).built = s.built ∧ (release s l).payload = s.payload := by
  induction l generalizing s with
  | nil => exact ⟨fun x => by simp [release], fun x => by simp [release], fun _ h => h, rfl, rfl⟩
  | cons next rest ih =>
    obtain ⟨fresh, nodup⟩ := List.nodup_cons.mp hl
    let s₁ : State σ := { s with waiting := Function.update s.waiting next (s.waiting next - 1) }
    let s₂ : State σ := if s.waiting next - 1 = 0 then { s₁ with ready := next :: s₁.ready } else s₁
    have waiting₂ : s₂.waiting = Function.update s.waiting next (s.waiting next - 1) := by
      show (if _ then _ else _ : State σ).waiting = _
      split <;> rfl
    have ready₂ : ∀ x, x ∈ s₂.ready ↔ x ∈ s.ready ∨ (x = next ∧ s.waiting next - 1 = 0) := by
      intro x
      show x ∈ (if _ then _ else _ : State σ).ready ↔ _
      split
      next zero =>
        show x ∈ next :: s.ready ↔ _
        rw [List.mem_cons]
        tauto
      next some =>
        show x ∈ s.ready ↔ _
        tauto
    obtain ⟨waits, readies, distinct, built, payload⟩ := ih nodup s₂
    have step : release s (next :: rest) = release s₂ rest := rfl
    rw [step]
    refine ⟨fun x => ?_, fun x => ?_, fun apart hs => ?_, ?_, ?_⟩
    · rw [waits, waiting₂]
      by_cases same : x = next
      · subst same
        simp [fresh]
      · simp [same]
    · rw [readies, ready₂, waiting₂]
      by_cases same : x = next
      · subst same
        simp [fresh]
      · simp [same]
    · refine distinct (fun x mem hx => ?_) ?_
      · rcases (ready₂ x).mp hx with old | ⟨rfl, -⟩
        · exact apart x (List.mem_cons_of_mem _ mem) old
        · exact fresh mem
      · show (if _ then _ else _ : State σ).ready.Nodup
        split
        · exact List.nodup_cons.mpr ⟨apart next (List.mem_cons_self ..), hs⟩
        · exact hs
    · rw [built]
      show (if _ then _ else _ : State σ).built = _
      split <;> rfl
    · rw [payload]
      show (if _ then _ else _ : State σ).payload = _
      split <;> rfl

/-! ## What the loop keeps -/

variable {n : ℕ} {deps : ℕ → Finset ℕ}

/-- After `done` are built: the counts are what is left, and a node is ready when
nothing is. -/
structure Sound (n : ℕ) (deps : ℕ → Finset ℕ) (done : Finset ℕ) (s : State σ) : Prop where
  inside : done ⊆ Finset.range n
  built : s.built = done.card
  waiting : ∀ id < n, s.waiting id = (deps id \ done).card
  ready : ∀ id, id ∈ s.ready ↔ id < n ∧ id ∉ done ∧ deps id ⊆ done
  nodup : s.ready.Nodup
  closed : ∀ id ∈ done, deps id ⊆ done

theorem mem_dependents {d id : ℕ} : id ∈ dependents n deps d ↔ id < n ∧ d ∈ deps id := by
  simp [dependents]

theorem nodup_dependents (d : ℕ) : (dependents n deps d).Nodup := List.nodup_range.filter _

theorem sound_start (payload : σ) : Sound n deps ∅ (start n deps payload) where
  inside := by simp
  built := rfl
  waiting id _ := by simp [start]
  ready id := by simp [start]
  nodup := List.nodup_reverse.mpr (List.nodup_range.filter _)
  closed := by simp

theorem Sound.builds {done : Finset ℕ} {s : State σ} (h : Sound n deps done s) {id : ℕ} {rest : List ℕ}
    (top : s.ready = id :: rest) (payload : σ) : Sound n deps (insert id done)
      (release { s with ready := rest, built := s.built + 1, payload := payload } (dependents n deps id)) := by
  have nodup := h.nodup
  rw [top] at nodup
  obtain ⟨notin, restNodup⟩ := List.nodup_cons.mp nodup
  obtain ⟨lt, fresh, below⟩ := (h.ready id).mp (by rw [top]; exact List.mem_cons_self ..)
  have inRest : ∀ x, x ∈ rest ↔ x ≠ id ∧ x < n ∧ x ∉ done ∧ deps x ⊆ done := by
    intro x
    rw [← h.ready, top, List.mem_cons]
    constructor
    · intro mem
      exact ⟨fun eq => notin (eq ▸ mem), Or.inr mem⟩
    · rintro ⟨ne, eq | mem⟩
      · exact absurd eq ne
      · exact mem
  -- A node that waits for `id` is neither built nor ready.
  have later : ∀ x, id ∈ deps x → x ∉ done ∧ ¬ deps x ⊆ done := fun x mem =>
    ⟨fun hx => fresh (h.closed x hx mem), fun sub => fresh (sub mem)⟩
  obtain ⟨waits, readies, distinct, built, -⟩ := release_spec (dependents n deps id) (nodup_dependents id)
    { s with ready := rest, built := s.built + 1, payload := payload }
  refine ⟨?_, ?_, fun x hx => ?_, fun x => ?_, ?_, fun x mem => ?_⟩
  · exact Finset.insert_subset (Finset.mem_range.mpr lt) h.inside
  · rw [built, Finset.card_insert_of_notMem fresh, ← h.built]
  · rw [waits]
    show (if _ then s.waiting x - 1 else s.waiting x) = _
    rw [h.waiting x hx, Finset.sdiff_insert]
    by_cases mem : id ∈ deps x
    · rw [if_pos (mem_dependents.mpr ⟨hx, mem⟩), Finset.card_erase_of_mem (Finset.mem_sdiff.mpr ⟨mem, fresh⟩)]
    · rw [if_neg fun both => mem (mem_dependents.mp both).2,
        Finset.erase_eq_of_notMem fun both => mem (Finset.mem_sdiff.mp both).1]
  · rw [readies]
    show x ∈ rest ∨ (x ∈ dependents n deps id ∧ s.waiting x - 1 = 0) ↔ _
    rw [inRest, mem_dependents, Finset.mem_insert, not_or]
    constructor
    · rintro (⟨ne, hx, out, sub⟩ | ⟨⟨hx, mem⟩, zero⟩)
      · exact ⟨hx, ⟨ne, out⟩, sub.trans (Finset.subset_insert _ _)⟩
      · refine ⟨hx, ⟨fun eq => ?_, (later x mem).1⟩, ?_⟩
        · subst eq
          exact fresh (below mem)
        · rw [h.waiting x hx, ← Finset.card_erase_of_mem (Finset.mem_sdiff.mpr ⟨mem, fresh⟩),
            ← Finset.sdiff_insert, Finset.card_eq_zero, Finset.sdiff_eq_empty_iff_subset] at zero
          exact zero
    · rintro ⟨hx, ⟨ne, out⟩, sub⟩
      by_cases mem : id ∈ deps x
      · right
        refine ⟨⟨hx, mem⟩, ?_⟩
        rw [h.waiting x hx, ← Finset.card_erase_of_mem (Finset.mem_sdiff.mpr ⟨mem, fresh⟩), ← Finset.sdiff_insert,
          Finset.card_eq_zero, Finset.sdiff_eq_empty_iff_subset]
        exact sub
      · exact Or.inl ⟨ne, hx, out, (Finset.subset_insert_iff_of_notMem mem).mp sub⟩
  · apply distinct
    · intro x mem hx
      exact (later x (mem_dependents.mp mem).2).2 ((inRest x).mp hx).2.2.2
    · exact restNodup
  · rcases Finset.mem_insert.mp mem with rfl | old
    · exact below.trans (Finset.subset_insert _ _)
    · exact (h.closed x old).trans (Finset.subset_insert _ _)

/-- Whatever waits for a ready node is still waiting. -/
theorem Sound.positive {done : Finset ℕ} {s : State σ} (h : Sound n deps done s) {id : ℕ} (top : id ∈ s.ready) :
    ∀ next ∈ dependents n deps id, 0 < s.waiting next := by
  intro next mem
  obtain ⟨lt, dep⟩ := mem_dependents.mp mem
  rw [h.waiting next lt]
  exact Finset.card_pos.mpr ⟨id, Finset.mem_sdiff.mpr ⟨dep, ((h.ready id).mp top).2.1⟩⟩

/-! ## Whole runs -/

/-- The loop ends, with every ready node built or in the error of one build. A property
that each build of a node keeps, once what it depends on is built, holds there. -/
theorem loop_ends {P : Finset ℕ → σ → Prop} {build : ℕ → σ → Except ε σ}
    (keeps : ∀ done id p p', id < n → id ∉ done → deps id ⊆ done → P done p → build id p = .ok p' →
      P (insert id done) p')
    {done : Finset ℕ} {s : State σ} (h : Sound n deps done s) (hp : P done s.payload) (fuel : ℕ)
    (enough : n < fuel + done.card) :
    ∃ r, loop (dependents n deps) build fuel s = some r ∧
      (∀ s', r = .ok s' → ∃ done', Sound n deps done' s' ∧ s'.ready = [] ∧ P done' s'.payload) ∧
      ∀ e, r = .error e → ∃ done' id p, id < n ∧ deps id ⊆ done' ∧ P done' p ∧ build id p = .error e := by
  induction fuel generalizing done s with
  | zero =>
    have le := Finset.card_le_card h.inside
    rw [Finset.card_range] at le
    omega
  | succ fuel ih =>
    unfold loop
    cases top : s.ready with
    | nil => exact ⟨.ok s, rfl, fun s' eq => (by cases eq; exact ⟨done, h, top, hp⟩), fun e eq => by cases eq⟩
    | cons id rest =>
      have mem : id ∈ s.ready := by rw [top]; exact List.mem_cons_self ..
      obtain ⟨lt, fresh, below⟩ := (h.ready id).mp mem
      dsimp only
      cases made : build id s.payload with
      | error e =>
        refine ⟨.error e, rfl, fun s' eq => (by cases eq), fun e' eq => ?_⟩
        cases eq
        exact ⟨done, id, s.payload, lt, below, hp, made⟩
      | ok payload =>
        dsimp only
        rw [if_pos (h.positive mem)]
        apply ih (h.builds top payload)
        · rw [(release_spec (dependents n deps id) (nodup_dependents id) _).2.2.2.2]
          exact keeps done id s.payload payload lt fresh below hp made
        · rw [Finset.card_insert_of_notMem fresh]
          omega

/-- Nothing is left waiting where dependencies descend. -/
theorem Sound.complete {done : Finset ℕ} {s : State σ} (h : Sound n deps done s) (empty : s.ready = [])
    {rank : ℕ → ℕ} (descends : ∀ id < n, ∀ d ∈ deps id, d < n ∧ rank d < rank id) : done = Finset.range n := by
  refine Finset.Subset.antisymm h.inside fun id mem => ?_
  have all : ∀ k id, rank id = k → id < n → id ∈ done := by
    intro k
    induction k using Nat.strong_induction_on with
    | _ k ih =>
      intro id hk lt
      by_contra out
      have sub : deps id ⊆ done := by
        intro d hd
        obtain ⟨hn, hr⟩ := descends id lt d hd
        exact ih (rank d) (by omega) d rfl hn
      have mem := (h.ready id).mpr ⟨lt, out, sub⟩
      rw [empty] at mem
      cases mem
  exact all (rank id) id rfl (Finset.mem_range.mp mem)

theorem Sound.built_eq {done : Finset ℕ} {s : State σ} (h : Sound n deps done s) :
    s.built = n ↔ done = Finset.range n := by
  rw [h.built]
  constructor
  · intro eq
    exact Finset.eq_of_subset_of_card_le h.inside (by rw [Finset.card_range, eq])
  · rintro rfl
    exact Finset.card_range n

end Ral.Kahn
