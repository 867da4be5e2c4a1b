import Ral.Core.Search
import Ral.Typecheck.Unify

/-! # Searches of a store

The searches of the unifier follow the edges out of the nodes of some colour:
those that cross no data, or all. One that finds nothing has explored everything
it can reach.
-/

namespace Ral.Typecheck
open Relation Ral.Search

namespace Core

def mark (c : Core) : Node → Option (Srt × ℕ)
  | ⟨.row, _⟩ => none
  | ⟨s, t⟩ =>
    match view t with
    | .inl v => some (s, c.anchor s v)
    | .inr _ => none

variable {c : Core}

theorem atRoot_var {s s' : Srt} {r v : ℕ} :
    c.AtRoot s' r ⟨s, .var v⟩ ↔ s' = s ∧ c.root s v = r := by
  constructor
  · rintro ⟨w, hw, hr⟩
    have hs := congrArg Sigma.fst hw
    simp only at hs
    subst hs
    cases hw
    exact ⟨rfl, hr⟩
  · rintro ⟨rfl, hr⟩
    exact ⟨v, rfl, hr⟩

theorem atAnchor_var {s s' : Srt} {r v : ℕ} :
    c.AtAnchor s' r ⟨s, .var v⟩ ↔ s' = s ∧ c.anchor s v = r := by
  constructor
  · rintro ⟨w, hw, hr⟩
    have hs := congrArg Sigma.fst hw
    simp only at hs
    subst hs
    cases hw
    exact ⟨rfl, hr⟩
  · rintro ⟨rfl, hr⟩
    exact ⟨v, rfl, hr⟩

theorem mark_var {s : Srt} (hs : s ≠ .row) (v : ℕ) : c.mark ⟨s, .var v⟩ = some (s, c.anchor s v) := by
  cases s with
  | row => exact (hs rfl).elim
  | ty => simp [mark]
  | comp => simp [mark]

theorem mark_struct {s : Srt} (b : Struct (Term s)) : c.mark ⟨s, b.val⟩ = none := by
  cases s <;> simp [mark]

theorem mark_eq_some {x : Node} {s : Srt} {r : ℕ} (h : c.mark x = some (s, r)) :
    s ≠ .row ∧ c.AtAnchor s r x := by
  obtain ⟨s', t⟩ := x
  cases hv : view t with
  | inl v =>
    obtain rfl := view_eq_inl.mp hv
    rw [fromRoot_term] at h ⊢
    by_cases hs : s' = .row
    · subst hs
      simp [mark] at h
    · rw [mark_var hs] at h
      cases h
      exact ⟨hs, v, rfl, rfl⟩
  | inr b =>
    obtain rfl := view_eq_inr.mp hv
    rw [mark_struct] at h
    cases h

@[simp] theorem children_var {s : Srt} (v : ℕ) : (Term.var v : Term s).children = [] := by
  cases s <;> rfl

theorem succ_var {s : Srt} {v : ℕ} {y : Node} :
    c.Succ ⟨s, .var v⟩ y ↔ ∃ b, c.get s v = some b ∧ y = ⟨s, b.val⟩ := by
  constructor
  · intro h
    generalize hx : (⟨s, .var v⟩ : Node) = x at h
    cases h with
    | bound hb =>
      cases hx
      exact ⟨_, hb, rfl⟩
    | child hc =>
      subst hx
      simp at hc
  · rintro ⟨b, hb, rfl⟩
    exact .bound hb

theorem succ_struct {x y : Node} (hx : x.2.asVar = none) : c.Succ x y ↔ y ∈ x.2.children := by
  constructor
  · intro h
    cases h with
    | bound hb => simp at hx
    | child hc => exact hc
  · exact fun h => .child h

theorem not_atRoot_struct {s : Srt} {r : ℕ} {x : Node} (hx : x.2.asVar = none) :
    ¬ c.AtRoot s r x := by
  rintro ⟨v, rfl, -⟩
  simp at hx

theorem not_atAnchor_struct {s : Srt} {r : ℕ} {x : Node} (hx : x.2.asVar = none) :
    ¬ c.AtAnchor s r x := by
  rintro ⟨v, rfl, -⟩
  simp at hx

/-! ## What a search establishes -/

variable {p bad : Node → Prop}

structure Explored (c : Core) (p bad : Node → Prop) (x : Node) (V V' : Srt × ℕ → Prop) :
    Prop where
  grown : Grown (c.Edge p) c.mark bad V V'
  covered : Covered (c.Edge p) c.mark bad V' x

theorem Explored.not_meets {x : Node} {V : Srt × ℕ → Prop}
    (h : c.Explored p bad x (fun _ => False) V) : ¬ c.Meets p bad x := by
  rintro ⟨y, hy, hb⟩
  exact h.grown.not_bad h.covered hy hb

theorem explored_leaf {x : Node} {V : Srt × ℕ → Prop} (hb : ¬ bad x)
    (h : ∀ y, ¬ c.Edge p x y) : c.Explored p bad x V V :=
  ⟨.refl V, .through hb fun y hy => (h y hy).elim⟩

theorem explored_marked {x : Node} {V : Srt × ℕ → Prop} {m : Srt × ℕ} (hm : c.mark x = some m)
    (hV : V m) (hb : ¬ bad x) : c.Explored p bad x V V :=
  ⟨.refl V, .marked hm hV hb⟩

theorem Explored.one {x y : Node} {V V' : Srt × ℕ → Prop} (hb : ¬ bad x)
    (hx : ∀ z, c.Edge p x z → z = y) (h : c.Explored p bad y V V') : c.Explored p bad x V V' :=
  ⟨h.grown, .through hb fun z hz => hx z hz ▸ h.covered⟩

theorem Explored.two {x y z : Node} {V V' V'' : Srt × ℕ → Prop} (hb : ¬ bad x)
    (hx : ∀ w, c.Edge p x w → w = y ∨ w = z) (h : c.Explored p bad y V V')
    (h' : c.Explored p bad z V' V'') : c.Explored p bad x V V'' := by
  refine ⟨h.grown.trans h'.grown, .through hb fun w hw => ?_⟩
  rcases hx w hw with rfl | rfl
  · exact h.covered.mono h'.grown.mono
  · exact h'.covered

/-- A variable marked for the first time, once what it is bound to is explored. -/
theorem Explored.enter {s : Srt} {v : ℕ} {V V' V'' : Srt × ℕ → Prop} (hs : s ≠ .row)
    (hb : ¬ bad ⟨s, .var v⟩) (hV : ∀ m, V' m ↔ m = (s, c.anchor s v) ∨ V m)
    (hgrown : Grown (c.Edge p) c.mark bad V' V'')
    (hbound : ∀ b, c.get s v = some b → Covered (c.Edge p) c.mark bad V'' ⟨s, b.val⟩) :
    c.Explored p bad ⟨s, .var v⟩ V V'' := by
  have hm : V'' (s, c.anchor s v) := hgrown.mono _ ((hV _).mpr (Or.inl rfl))
  refine ⟨hgrown.visit hV fun x hx y hy => ?_, .marked (mark_var hs v) hm hb⟩
  obtain ⟨w, rfl, hw⟩ := (mark_eq_some hx).2
  obtain ⟨b, hg, rfl⟩ := succ_var.mp hy.2
  exact hbound b ((c.get_of_anchor hw).symm.trans hg)

end Core

/-! ## The searches -/

def Visited.marks (V : Visited) (m : Srt × ℕ) : Prop := m.2 ∈ V.seen m.1

theorem Visited.marks_insert (V : Visited) (s : Srt) (r : ℕ) (m : Srt × ℕ) :
    (V.insert s r).marks m ↔ m = (s, r) ∨ V.marks m := by
  obtain ⟨s', r'⟩ := m
  by_cases hs : s' = s
  · subst hs
    simp [marks, insert]
  · simp [marks, insert, hs]

theorem Visited.marks_new (m : Srt × ℕ) : Visited.new.marks m ↔ False := by
  simp [marks, new]

theorem sat_first {s : Srt} {r : ℕ} {V : Visited} {Q : Except TypeErrorKind Bool → Visited → Prop}
    (hnew : ¬ V.marks (s, r) → Q (.ok true) (V.insert s r))
    (hold : V.marks (s, r) → Q (.ok false) V) : Run.Sat (Walk.first s r) V Q := by
  refine Run.sat_act ?_
  by_cases h : r ∈ V.seen s
  · have hsame : V.insert s r = V := by
      unfold Visited.insert
      rw [Finset.insert_eq_of_mem h, Function.update_eq_self]
    simpa [h, hsame] using hold h
  · simpa [h] using hnew h

/-- What a search from `x` with the marks of `V` explores where it finds nothing. -/
def Searched {α : Type} (c : Core) (p bad : Node → Prop) (hit : α → Bool) (x : Node)
    (V : Visited) : Except TypeErrorKind α → Visited → Prop
  | .ok a, V' => hit a = false → c.Explored p bad x V.marks V'.marks
  | .error _, _ => True

section Searched
variable {c : Core} {p bad : Node → Prop} {α : Type} {hit : α → Bool} {x y z : Node} {V V' : Visited}

theorem Searched.one {r : Except TypeErrorKind α} (hb : ¬ bad x) (hx : ∀ z, c.Edge p x z → z = y)
    (h : Searched c p bad hit y V r V') : Searched c p bad hit x V r V' := by
  cases r with
  | error e => trivial
  | ok a => exact fun ha => (h ha).one hb hx

theorem Searched.second {V'' : Visited} {r : Except TypeErrorKind α} (hb : ¬ bad x)
    (hx : ∀ w, c.Edge p x w → w = y ∨ w = z) (h : c.Explored p bad y V.marks V'.marks)
    (h' : Searched c p bad hit z V' r V'') : Searched c p bad hit x V r V'' := by
  cases r with
  | error e => trivial
  | ok a => exact fun ha => h.two hb hx (h' ha)

theorem Searched.leaf {a : α} (hb : ¬ bad x) (hx : ∀ y, ¬ c.Edge p x y) :
    Searched c p bad hit x V (.ok a) V :=
  fun _ => Core.explored_leaf hb hx

theorem Searched.of_leaf {s : Srt} {b : Term s} {a : α} (hh : b.asVar = none) (hb : ¬ bad ⟨s, b⟩)
    (hc : b.children = []) : Searched c p bad hit ⟨s, b⟩ V (.ok a) V := by
  refine .leaf hb fun y hy => ?_
  simpa [hc] using (Core.succ_struct hh).mp hy.2

theorem Searched.of_child {s : Srt} {b : Term s} {r : Except TypeErrorKind α} (hh : b.asVar = none)
    (hb : ¬ bad ⟨s, b⟩) (hc : b.children = [y]) (h : Searched c p bad hit y V r V') :
    Searched c p bad hit ⟨s, b⟩ V r V' := by
  refine h.one hb fun z hz => ?_
  simpa [hc] using (Core.succ_struct hh).mp hz.2

theorem Searched.of_children {s : Srt} {b : Term s} {V'' : Visited} {r : Except TypeErrorKind α}
    (hh : b.asVar = none) (hb : ¬ bad ⟨s, b⟩) (hc : b.children = [y, z])
    (h : c.Explored p bad y V.marks V'.marks) (h' : Searched c p bad hit z V' r V'') :
    Searched c p bad hit ⟨s, b⟩ V r V'' := by
  refine .second hb (fun w hw => ?_) h h'
  simpa [hc] using (Core.succ_struct hh).mp hw.2

theorem Searched.enter {s : Srt} {v : ℕ} (hs : s ≠ .row) (hb : ¬ bad ⟨s, .var v⟩)
    {b : Struct (Term s)} {r : Except TypeErrorKind α} (hg : c.get s v = some b)
    (h : Searched c p bad hit ⟨s, b.val⟩ (V.insert s (c.anchor s v)) r V') :
    Searched c p bad hit ⟨s, .var v⟩ V r V' := by
  cases r with
  | error e => trivial
  | ok a =>
    refine fun ha => Core.Explored.enter hs hb (V.marks_insert s _) (h ha).grown fun b' hb' => ?_
    obtain rfl := Option.some.inj (hg.symm.trans hb')
    exact (h ha).covered

theorem Searched.enter_free {s : Srt} {v : ℕ} (hs : s ≠ .row) (hb : ¬ bad ⟨s, .var v⟩) {a : α}
    (hg : c.get s v = none) :
    Searched c p bad hit ⟨s, .var v⟩ V (.ok a) (V.insert s (c.anchor s v)) := by
  refine fun _ => Core.Explored.enter hs hb (V.marks_insert s _) (.refl _) fun b hb' => ?_
  rw [hg] at hb'
  cases hb'

theorem sat_deeper {σ : Type} {d : ℕ} {s : σ} {Q : Except TypeErrorKind ℕ → σ → Prop}
    (hok : Q (.ok (d + 1)) s) (hdeep : Q (.error .typeTooDeep) s) : Run.Sat (deeper d) s Q := by
  unfold deeper
  split
  · exact Run.sat_fail hdeep
  · exact Run.sat_pure hok

end Searched

namespace Unifier
variable (u : Unifier)

theorem rootOf_var {s : Srt} (v : ℕ) : u.rootOf (.var v : Term s) = some (u.core.anchor s v) := by
  simp [rootOf]

theorem rootOf_struct {s : Srt} (b : Struct (Term s)) : u.rootOf b.val = none := by
  simp [rootOf]

section Once
variable {s : Srt} (hs : s ≠ .row) (t : Term s) {α : Type} {p bad : Node → Prop} {hit : α → Bool}
  (V : Visited) {body : Walk α}
  (hstruct : ∀ b : Struct (Term s), u.core.resolve t = b.val → ∀ V,
    Run.Sat body V (Searched u.core p bad hit ⟨s, b.val⟩ V))
  (hvar : ∀ v, u.core.resolve t = .var v → ∀ V, Run.Sat body V fun r V' => ∀ a, r = .ok a → V' = V)
include hs hstruct hvar

/-- A variable met for the first time, from the search of its head. -/
theorem sat_enter {v : ℕ} (ht : t = .var v) (hb : ¬ bad ⟨s, .var v⟩) :
    Run.Sat body (V.insert s (u.core.anchor s v)) (Searched u.core p bad hit ⟨s, t⟩ V) := by
  subst ht
  cases hg : u.core.get s v with
  | some b =>
    exact (hstruct b (u.core.resolve_bound hg) _).mono fun r V' h => .enter hs hb hg h
  | none =>
    refine (hvar _ (u.core.resolve_free hg) _).mono fun r V' h => ?_
    cases r with
    | error e => trivial
    | ok a =>
      obtain rfl := h a rfl
      exact .enter_free hs hb hg

end Once

/-- The search of a term from the search of its head, where `body` runs unless a
variable settles it. -/
theorem sat_meets {anchor : Anchor} {s : Srt} (hs : s ≠ .row) (t : Term s) (via : CycleVia)
    {p : Node → Prop} (V : Visited) {body : Walk (Option CycleVia)}
    (hstruct : ∀ b : Struct (Term s), u.core.resolve t = b.val → ∀ V, Run.Sat body V
      (Searched u.core p (u.core.AtAnchor anchor.sort anchor.root) Option.isSome ⟨s, b.val⟩ V))
    (hvar : ∀ v, u.core.resolve t = .var v → ∀ V,
      Run.Sat body V fun r V' => ∀ a, r = .ok a → V' = V) :
    Run.Sat (do
      match ← u.meets anchor via t with
      | some settled => pure settled
      | none => body) V
      (Searched u.core p (u.core.AtAnchor anchor.sort anchor.root) Option.isSome ⟨s, t⟩ V) := by
  cases hv : view t with
  | inr b =>
    obtain rfl := view_eq_inr.mp hv
    refine Run.sat_bind ?_
    have hm : u.meets anchor via b.val = pure none := by simp [meets, rootOf_struct]
    rw [hm]
    exact Run.sat_pure (hstruct b (u.core.resolve_struct b) V)
  | inl v =>
    obtain rfl := view_eq_inl.mp hv
    rw [fromRoot_term] at *
    refine Run.sat_bind ?_
    unfold meets
    rw [rootOf_var]
    by_cases ha : anchor = ⟨s, u.core.anchor s v⟩
    · simp only [ha, if_true]
      exact Run.sat_pure (Run.sat_pure fun h => by cases h)
    · have hb : ¬ u.core.AtAnchor anchor.sort anchor.root ⟨s, .var v⟩ := by
        intro hat
        obtain ⟨hsort, hr⟩ := Core.atAnchor_var.mp hat
        apply ha
        cases anchor
        cases hsort
        rw [hr]
      simp only [if_neg ha]
      refine Run.sat_bind (sat_first (fun _ => Run.sat_pure ?_) fun hold => Run.sat_pure ?_)
      · exact u.sat_enter hs _ V hstruct hvar rfl hb
      · exact Run.sat_pure fun _ => Core.explored_marked (Core.mark_var hs v) hold hb

theorem reaches_spec (anchor : Anchor) (n : ℕ) :
    (∀ t via d V, Run.Sat (u.tyReaches anchor n t via d) V (Searched u.core Core.flowNode
      (u.core.AtAnchor anchor.sort anchor.root) Option.isSome ⟨.ty, t⟩ V)) ∧
    (∀ t via d V, Run.Sat (u.compReaches anchor n t via d) V (Searched u.core Core.flowNode
      (u.core.AtAnchor anchor.sort anchor.root) Option.isSome ⟨.comp, t⟩ V)) := by
  induction n with
  | zero => exact ⟨fun _ _ _ _ => Run.sat_stuck, fun _ _ _ _ => Run.sat_stuck⟩
  | succ n ih =>
    obtain ⟨ihTy, ihComp⟩ := ih
    constructor
    · intro t via d V
      rw [tyReaches]
      refine u.sat_meets (by decide) t via V ?_ ?_
      · intro b hb V
        rw [core_resolve, hb]
        obtain ⟨b, hh⟩ := b
        have hn : ¬ u.core.AtAnchor anchor.sort anchor.root ⟨.ty, b⟩ := Core.not_atAnchor_struct hh
        cases b with
        | var v => simp [Unifiable.asVar] at hh
        | thunk c =>
          refine Run.sat_bind (sat_deeper ?_ trivial)
          exact (ihComp c via (d + 1) V).mono fun r V' h => h.of_child hh hn rfl
        | handle g a =>
          refine Run.sat_bind (sat_deeper ?_ trivial)
          exact (ihTy a via (d + 1) V).mono fun r V' h => h.of_child hh hn rfl
        | list _ | map _ | record _ | variant _ =>
          refine Run.sat_pure (.leaf hn fun y hy => ?_)
          simp [Core.Edge, Core.flowNode, Term.isData] at hy
        | unit | bytes | bool | int | float | string =>
          exact Run.sat_pure (.of_leaf hh hn rfl)
      · intro v hv V
        rw [core_resolve, hv]
        exact Run.sat_pure fun _ _ => rfl
    · intro t via d V
      rw [compReaches]
      refine u.sat_meets (by decide) t via V ?_ ?_
      · intro b hb V
        rw [core_resolve, hb]
        obtain ⟨b, hh⟩ := b
        have hn : ¬ u.core.AtAnchor anchor.sort anchor.root ⟨.comp, b⟩ := Core.not_atAnchor_struct hh
        refine Run.sat_bind (sat_deeper ?_ trivial)
        cases b with
        | var v => simp [Unifiable.asVar] at hh
        | ret g a =>
          exact (ihTy a .returns (d + 1) V).mono fun r V' h => h.of_child hh hn rfl
        | func a b =>
          refine Run.sat_bind ((ihTy a _ (d + 1) V).mono fun r V' h => ?_)
          cases r with
          | error e => trivial
          | ok found =>
            cases found with
            | some via => exact Run.sat_pure fun h => by cases h
            | none =>
              exact (ihComp b .returns (d + 1) V').mono fun r V'' h' => .of_children hh hn rfl (h rfl) h'
      · intro v hv V
        rw [core_resolve, hv]
        exact Run.sat_bind (sat_deeper (Run.sat_pure fun _ _ => rfl) fun _ h => by cases h)

/-- A type or computation that is expanded once, from the search of its head. -/
theorem sat_revisits {s : Srt} (hs : s ≠ .row) (t : Term s) {p bad : Node → Prop}
    (hb : ∀ v, ¬ bad ⟨s, .var v⟩) (V : Visited) {body : Walk Bool}
    (hstruct : ∀ b : Struct (Term s), u.core.resolve t = b.val → ∀ V,
      Run.Sat body V (Searched u.core p bad id ⟨s, b.val⟩ V))
    (hvar : ∀ v, u.core.resolve t = .var v → body = pure false) :
    Run.Sat (do if ← u.revisits t then pure false else body) V
      (Searched u.core p bad id ⟨s, t⟩ V) := by
  cases hv : view t with
  | inr b =>
    obtain rfl := view_eq_inr.mp hv
    refine Run.sat_bind ?_
    have hm : u.revisits b.val = pure false := by simp [revisits, rootOf_struct]
    rw [hm]
    exact Run.sat_pure (hstruct b (u.core.resolve_struct b) V)
  | inl v =>
    obtain rfl := view_eq_inl.mp hv
    rw [fromRoot_term] at *
    refine Run.sat_bind ?_
    unfold revisits
    rw [rootOf_var]
    refine Run.sat_bind (sat_first (fun _ => Run.sat_pure ?_) fun hold => Run.sat_pure ?_)
    · refine u.sat_enter hs _ V hstruct (fun w hw V => ?_) rfl (hb v)
      rw [hvar w hw]
      exact Run.sat_pure fun _ _ => rfl
    · exact Run.sat_pure fun _ => Core.explored_marked (Core.mark_var hs v) hold (hb v)

theorem not_atRow {s : Srt} (hs : s ≠ .row) {r : ℕ} {t : Term s} :
    ¬ u.core.AtRoot .row r ⟨s, t⟩ := by
  rintro ⟨v, hv, -⟩
  exact hs (congrArg Sigma.fst hv)

/-- The search of a row, from the searches of what it has and of what follows. -/
theorem sat_rowOccurs {v : RowVar} (hv : u.core.Free .row v) {n : ℕ}
    (ihRow : ∀ r d V, Run.Sat (u.rowOccursInner v n r d) V
      (Searched u.core Core.anyNode (u.core.AtRoot .row v) id ⟨.row, r⟩ V))
    (ihTy : ∀ t d V, Run.Sat (u.tyOccursRow v n t d) V
      (Searched u.core Core.anyNode (u.core.AtRoot .row v) id ⟨.ty, t⟩ V))
    (r : Row) (d : ℕ) (V : Visited) : Run.Sat (u.rowOccursInner v (n + 1) r d) V
      (Searched u.core Core.anyNode (u.core.AtRoot .row v) id ⟨.row, r⟩ V) := by
  have hstruct : ∀ b : Struct Row, u.core.resolve r = b.val →
      Run.Sat (u.rowOccursInner v (n + 1) r d) V
        (Searched u.core Core.anyNode (u.core.AtRoot .row v) id ⟨.row, b.val⟩ V) := by
    intro b hb
    rw [rowOccursInner, core_resolve, hb]
    obtain ⟨b, hh⟩ := b
    have hn : ¬ u.core.AtRoot .row v ⟨.row, b⟩ := Core.not_atRoot_struct hh
    cases b with
    | var w => simp [Unifiable.asVar] at hh
    | empty =>
      exact Run.sat_pure (.of_leaf hh hn rfl)
    | extend l t rest =>
      refine Run.sat_bind (sat_deeper (Run.sat_bind ?_) trivial)
      refine (ihTy t (d + 1) V).mono fun r V' h => ?_
      cases r with
      | error e => trivial
      | ok inside =>
        cases inside with
        | true => exact Run.sat_pure fun h => by cases h
        | false => exact (ihRow rest d V').mono fun r V'' h' => .of_children hh hn rfl (h rfl) h'
  cases hw : view r with
  | inr b =>
    obtain rfl := view_eq_inr.mp hw
    exact hstruct b (u.core.resolve_struct b)
  | inl w =>
    obtain rfl := view_eq_inl.mp hw
    rw [fromRoot_term] at *
    cases hg : u.core.get .row w with
    | some b =>
      have hn : ¬ u.core.AtRoot .row v ⟨.row, .var w⟩ := by
        intro hat
        have hget := hv.get
        rw [← (Core.atRoot_var.mp hat).2, Core.get_root, hg] at hget
        cases hget
      refine (hstruct b (u.core.resolve_bound hg)).mono fun r V' h => h.one hn fun z hz => ?_
      obtain ⟨b', hb', rfl⟩ := Core.succ_var.mp hz.2
      rw [hg] at hb'
      cases hb'
      rfl
    | none =>
      rw [rowOccursInner, core_resolve, u.core.resolve_free hg]
      refine Run.sat_pure fun he => Core.explored_leaf (fun hat => ?_) fun y hy => ?_
      · exact of_decide_eq_false he (Core.atRoot_var.mp hat).2
      · obtain ⟨b', hb', -⟩ := Core.succ_var.mp hy.2
        rw [hg] at hb'
        cases hb'

theorem occurs_spec {v : RowVar} (hv : u.core.Free .row v) (n : ℕ) :
    (∀ r d V, Run.Sat (u.rowOccursInner v n r d) V
      (Searched u.core Core.anyNode (u.core.AtRoot .row v) id ⟨.row, r⟩ V)) ∧
    (∀ t d V, Run.Sat (u.tyOccursRow v n t d) V
      (Searched u.core Core.anyNode (u.core.AtRoot .row v) id ⟨.ty, t⟩ V)) ∧
    (∀ t d V, Run.Sat (u.compOccursRow v n t d) V
      (Searched u.core Core.anyNode (u.core.AtRoot .row v) id ⟨.comp, t⟩ V)) := by
  induction n with
  | zero => exact ⟨fun _ _ _ => Run.sat_stuck, fun _ _ _ => Run.sat_stuck,
      fun _ _ _ => Run.sat_stuck⟩
  | succ n ih =>
    obtain ⟨ihRow, ihTy, ihComp⟩ := ih
    refine ⟨u.sat_rowOccurs hv ihRow ihTy, fun t d V => ?_, fun t d V => ?_⟩
    · rw [tyOccursRow]
      refine u.sat_revisits (by decide) t (fun _ => u.not_atRow (by decide))
        V (fun b hb V => ?_) fun w hw => ?_
      · rw [core_resolve, hb]
        obtain ⟨b, hh⟩ := b
        have hn : ¬ u.core.AtRoot .row v ⟨.ty, b⟩ := Core.not_atRoot_struct hh
        cases b with
        | var w => simp [Unifiable.asVar] at hh
        | list a | map a | handle _ a =>
          refine Run.sat_bind (sat_deeper ?_ trivial)
          exact (ihTy a (d + 1) V).mono fun r V' h => h.of_child hh hn rfl
        | record a | variant a =>
          refine Run.sat_bind (sat_deeper ?_ trivial)
          exact (ihRow a (d + 1) V).mono fun r V' h => h.of_child hh hn rfl
        | thunk a =>
          refine Run.sat_bind (sat_deeper ?_ trivial)
          exact (ihComp a (d + 1) V).mono fun r V' h => h.of_child hh hn rfl
        | unit | bytes | bool | int | float | string =>
          exact Run.sat_pure (.of_leaf hh hn rfl)
      · rw [core_resolve, hw]
    · rw [compOccursRow]
      refine u.sat_revisits (by decide) t (fun _ => u.not_atRow (by decide))
        V (fun b hb V => ?_) fun w hw => ?_
      · rw [core_resolve, hb]
        obtain ⟨b, hh⟩ := b
        have hn : ¬ u.core.AtRoot .row v ⟨.comp, b⟩ := Core.not_atRoot_struct hh
        cases b with
        | var w => simp [Unifiable.asVar] at hh
        | ret g a =>
          refine Run.sat_bind (sat_deeper ?_ trivial)
          exact (ihTy a (d + 1) V).mono fun r V' h => h.of_child hh hn rfl
        | func a b =>
          refine Run.sat_bind (sat_deeper (Run.sat_bind ?_) trivial)
          refine (ihTy a (d + 1) V).mono fun r V' h => ?_
          cases r with
          | error e => trivial
          | ok inside =>
            cases inside with
            | true => exact Run.sat_pure fun h => by cases h
            | false =>
              refine Run.sat_bind (sat_deeper ?_ trivial)
              exact (ihComp b (d + 1) V').mono fun r V'' h' => .of_children hh hn rfl (h rfl) h'
      · rw [core_resolve, hw]

/-! ## Data -/

theorem sat_owed_revisits (t : Ty) (w : DataWalk) :
    Run.Sat (DataWalk.revisits u t) w fun _ w' => w'.owed = w.owed := by
  unfold DataWalk.revisits
  cases u.rootOf t with
  | none => exact Run.sat_pure rfl
  | some r => exact Run.sat_act rfl

/-- What a walk over data owes are free variables. -/
theorem data_owes_free (witness : Option Span) (n : ℕ) :
    (∀ t d w, (∀ v ∈ w.owed.tys, u.core.Free .ty v) → Run.Sat (u.dataTy witness n t d) w
      fun r w' => r = .ok () → ∀ v ∈ w'.owed.tys, u.core.Free .ty v) ∧
    (∀ r d w, (∀ v ∈ w.owed.tys, u.core.Free .ty v) → Run.Sat (u.dataRow witness n r d) w
      fun r w' => r = .ok () → ∀ v ∈ w'.owed.tys, u.core.Free .ty v) := by
  induction n with
  | zero => exact ⟨fun _ _ _ _ => Run.sat_stuck, fun _ _ _ _ => Run.sat_stuck⟩
  | succ n ih =>
    obtain ⟨ihTy, ihRow⟩ := ih
    constructor
    · intro t d w hw
      rw [dataTy]
      refine Run.sat_bind ((u.sat_owed_revisits t w).mono fun res w' howed => ?_)
      rw [← howed] at hw
      cases res with
      | error e => exact fun h => by cases h
      | ok revisited =>
        cases revisited with
        | true => exact Run.sat_pure fun _ => hw
        | false =>
          refine Run.sat_bind (sat_deeper ?_ fun h => by cases h)
          cases ht : u.resolve t with
          | var v =>
            refine Run.sat_modify fun _ v' hv' => ?_
            rcases List.mem_append.mp hv' with hv' | hv'
            · exact hw v' hv'
            · obtain rfl := List.mem_singleton.mp hv'
              exact (u.core.free_of_resolve ((u.core_resolve t).symm.trans ht)).1
          | unit | bool | int | float | string | bytes => exact Run.sat_pure fun _ => hw
          | list a | map a => exact ihTy a (d + 1) w' hw
          | record r | variant r => exact ihRow r (d + 1) w' hw
          | thunk a | handle g a =>
            refine Run.sat_lift fun r hr => ?_
            obtain ⟨t', -, rfl⟩ := Option.map_eq_some_iff.mp hr
            exact fun h => by cases h
    · intro r d w hw
      rw [dataRow]
      cases u.resolve r with
      | empty => exact Run.sat_pure fun _ => hw
      | var v => exact Run.sat_modify fun _ => hw
      | extend l t rest =>
        refine Run.sat_bind ((ihTy t d w hw).mono fun res w' h => ?_)
        cases res with
        | error e => exact fun h => by cases h
        | ok _ => exact ihRow rest d w' (h rfl)

end Unifier

end Ral.Typecheck
