import Ral.Typecheck.Reachable

/-! # The walks end

Over an acyclic store substitution, the search for the free variables of a type
and the walk along a row's spine end, whatever marks they start from. All three
follow the induction over a walk that marks what it expands.
-/

namespace Ral.Typecheck
open Relation Run

/-! ## Walks that end -/

/-- Ends without an error and forgets no mark. -/
def Ends {α : Type} (x : ℕ → Walk α) (V : Visited) : Prop :=
  ∃ a V', Returns x V (.ok a) V' ∧ V.all ⊆ V'.all

namespace Ends

variable {α β : Type} {x y : ℕ → Walk α} {V : Visited}

theorem const {x : Walk α} {a : α} {V' : Visited} (h : x V = some (.ok a, V'))
    (hV : V.all ⊆ V'.all) : Ends (fun _ => x) V :=
  ⟨a, V', .const h, hV⟩

theorem pure (a : α) : Ends (fun _ => Pure.pure a) V := const rfl subset_rfl

theorem bind {f : ℕ → α → Walk β} (hx : Ends x V)
    (hf : ∀ a V', V.all ⊆ V'.all → Ends (fun n => f n a) V') : Ends (fun n => x n >>= f n) V := by
  obtain ⟨a, V₁, hx, h₁⟩ := hx
  obtain ⟨b, V₂, hf, h₂⟩ := hf a V₁ h₁
  exact ⟨b, V₂, hx.bind hf, h₁.trans h₂⟩

theorem after {x : Walk α} {f : ℕ → α → Walk β} {a : α} {V' : Visited}
    (hx : x V = some (.ok a, V')) (hV : V.all ⊆ V'.all) (hf : Ends (fun n => f n a) V') :
    Ends (fun n => x >>= f n) V := by
  obtain ⟨b, V₂, hf, h₂⟩ := hf
  exact ⟨b, V₂, (Returns.const hx).bind hf, hV.trans h₂⟩

theorem map (f : α → β) (hx : Ends x V) : Ends (fun n => x n >>= fun a => Pure.pure (f a)) V :=
  hx.bind fun _ _ _ => pure _

theorem succ (h : Ends y V) (hx : ∀ n, x (n + 1) V = y n V) : Ends x V := by
  obtain ⟨a, V', hr, hV⟩ := h
  exact ⟨a, V', hr.succ hx, hV⟩

theorem shift (h : Ends x V) : Ends (fun n => x (n + 1)) V := by
  obtain ⟨a, V', ⟨n, hn⟩, hV⟩ := h
  exact ⟨a, V', ⟨n, fun m hm => hn (m + 1) (Nat.le_succ_of_le hm)⟩, hV⟩

end Ends

namespace Visited

theorem all_of_seen {V V' : Visited} (h : V'.seen = V.seen) : V.all ⊆ V'.all :=
  all_mono fun s => by rw [h]

theorem all_insert {V : Visited} {s : Srt} {r : ℕ} (hs : s ≠ .row) :
    (V.insert s r).all = Insert.insert (s, r) V.all := by
  ext ⟨s', r'⟩
  rw [mem_all, Finset.mem_insert, mem_all]
  by_cases h : s' = s
  · subst h
    simp [Visited.insert, hs]
  · simp [Visited.insert, h]

theorem all_remove {V V' : Visited} {s : Srt} {r : ℕ} (hr : r ∉ V.seen s) (h : V.all ⊆ V'.all) :
    V.all ⊆ (V'.remove s r).all := by
  rintro ⟨s', r'⟩ hm
  have hm' := h hm
  rw [mem_all] at hm hm' ⊢
  refine ⟨hm.1, ?_⟩
  by_cases hs : s' = s
  · subst hs
    have hne : r' ≠ r := fun he => hr (he ▸ hm.2)
    simpa [remove, hne] using hm'.2
  · simpa [remove, hs] using hm'.2

end Visited

namespace Unifier

variable (u : Unifier)

/-! ## Substitution -/

/-- Substitution at any sort. -/
def applyInner (n : ℕ) : {s : Srt} → Term s → Walk (Term s)
  | .ty, t => u.applyTyInner n t
  | .comp, t => u.applyCompTyInner n t
  | .row, t => u.applyRowInner n t

/-- What a back-edge leaves: the marks, and a root not yet marked where there is none. -/
def Settles {s : Srt} (s' : Srt) (r : ℕ) (x : Walk (Option (Term s))) (V : Visited) : Prop :=
  ∃ o V', x V = some (.ok o, V') ∧ V'.seen = V.seen ∧ (o = none → s' ≠ .row → r ∉ V.seen s')

variable {u} {V : Visited}

theorem tyBackEdge_settles (r : TyVar) : Settles .ty r (u.tyBackEdge r) V := by
  unfold Settles tyBackEdge
  show ∃ o V', (Run.bind Run.get _) V = some (.ok o, V') ∧ V'.seen = V.seen ∧ _
  by_cases hc : r ∈ V.cyclic .ty
  · refine ⟨some (.var r), V, ?_, rfl, fun h => ?_⟩
    · simp [Run.bind, Run.get, hc, Pure.pure, Run.pure]
    · cases h
  by_cases hs : r ∈ V.seen .ty
  · have hplain : Settles .ty r (do
        Run.modify fun v => v.tag .ty r
        pure (some (.var r)) : Walk (Option Ty)) V :=
      ⟨some (.var r), V.tag .ty r, rfl, rfl, fun h => by cases h⟩
    simp only [Run.bind, Run.get]
    rw [if_neg hc, if_pos hs]
    show Settles .ty r _ V
    split
    · next c _ =>
        by_cases hm : u.root .comp c ∈ V.seen .comp
        · rw [if_pos hm]
          exact ⟨some (.thunk (.var (u.root .comp c))), V.tag .comp (u.root .comp c), rfl, rfl,
            fun h => by cases h⟩
        · rw [if_neg hm]
          exact hplain
    · exact hplain
  · refine ⟨none, V, ?_, rfl, fun _ _ => hs⟩
    simp [Run.bind, Run.get, hc, hs, Pure.pure, Run.pure]

theorem compBackEdge_settles (r : CompTyVar) : Settles .comp r (compBackEdge r) V := by
  unfold Settles compBackEdge
  show ∃ o V', (Run.bind Run.get _) V = some (.ok o, V') ∧ V'.seen = V.seen ∧ _
  by_cases hs : r ∈ V.seen .comp
  · refine ⟨some (.var r), V.tag .comp r, ?_, rfl, fun h => ?_⟩
    · simp only [Run.bind, Run.get, hs, if_true]
      rfl
    · cases h
  by_cases hc : r ∈ V.cyclic .comp
  · refine ⟨some (.var r), V, ?_, rfl, fun h => ?_⟩
    · simp [Run.bind, Run.get, hc, hs, Pure.pure, Run.pure]
    · cases h
  · refine ⟨none, V, ?_, rfl, fun _ _ => hs⟩
    simp [Run.bind, Run.get, hc, hs, Pure.pure, Run.pure]

theorem stays_settles {s : Srt} {backEdge : ℕ → Walk (Option (Term s))} {v : ℕ}
    (h : Settles s (u.root s v) (backEdge (u.root s v)) V) :
    Settles s (u.root s v) (u.stays backEdge (.var v)) V := by
  obtain ⟨o, V', hb, hV, hn⟩ := h
  have hroot : u.rootOf (.var v : Term s) = some (u.root s v) := by
    rw [rootOf, view_var]
  unfold Settles stays
  rw [hroot]
  show ∃ o V', (Run.bind (backEdge _) _) V = _ ∧ _
  unfold Run.bind
  rw [hb]
  cases o with
  | some back => exact ⟨some back, V', rfl, hV, fun h => by cases h⟩
  | none => exact ⟨_, V', rfl, hV, fun _ hs => hn rfl hs⟩

theorem expanding_ends {s : Srt} (hs : s ≠ .row) {v : ℕ} {body : ℕ → Walk (Term s)}
    (hr : u.root s v ∉ V.seen s)
    (h : ∀ V', Insert.insert (s, u.root s v) V.all ⊆ V'.all → Ends body V') :
    Ends (fun n => u.expanding (.var v) (body n)) V := by
  have hroot : u.rootOf (.var v : Term s) = some (u.root s v) := by
    rw [rootOf, view_var]
  obtain ⟨a, V', hb, hV⟩ := h (V.insert s (u.root s v)) (by rw [Visited.all_insert hs])
  have hmark : V.all ⊆ V'.all := by
    rw [Visited.all_insert hs] at hV
    exact (Finset.subset_insert _ _).trans hV
  refine ⟨a, if u.root s v ∈ V'.cyclic s then V' else V'.remove s (u.root s v), ?_, ?_⟩
  · unfold expanding
    rw [hroot]
    refine Returns.bind (.const rfl) (Returns.bind hb ?_)
    exact .const rfl
  · split
    · exact hmark
    · exact Visited.all_remove hr hmark

theorem applyInner_struct {s : Srt} {t : Term s} (ht : t.asVar = none)
    (h : ∀ y ∈ t.children, ∀ V', V.all ⊆ V'.all → Ends (fun n => u.applyInner n y.2) V') :
    Ends (fun n => u.applyInner n t) V := by
  cases t with
  | var v => simp at ht
  | unit | bytes | bool | int | float | string | empty => exact (Ends.pure _).succ fun _ => rfl
  | list a | map a | handle g a | ret g a | record a | variant a | thunk a =>
    have ha := h ⟨_, a⟩ (List.mem_singleton.mpr rfl) V subset_rfl
    exact (ha.map _).succ fun _ => rfl
  | func a b | extend l a b =>
    have ha := h ⟨_, a⟩ (by simp [Term.children]) V subset_rfl
    have hb := h ⟨_, b⟩ (by simp [Term.children])
    exact (ha.bind fun a' V' hV => (hb V' hV).map _).succ fun _ => rfl

def backEdge (u : Unifier) : (s : Srt) → ℕ → Walk (Option (Term s))
  | .ty => u.tyBackEdge
  | .comp => compBackEdge
  | .row => fun _ => Pure.pure none

theorem backEdge_settles (s : Srt) (r : ℕ) : Settles s r (u.backEdge s r) V := by
  cases s with
  | ty => exact tyBackEdge_settles r
  | comp => exact compBackEdge_settles r
  | row => exact ⟨none, V, rfl, rfl, fun _ h => (h rfl).elim⟩

def orStays (u : Unifier) {s : Srt} (t : Term s) (body : Walk (Term s)) : Walk (Term s) :=
  Run.bind (u.stays (u.backEdge s) t) fun
    | some back => Pure.pure back
    | none => body

theorem orStays_ends {s : Srt} {v : ℕ} {body : ℕ → Walk (Term s)}
    (h : ∀ V', V.all ⊆ V'.all → (s ≠ .row → u.root s v ∉ V'.seen s) → Ends body V') :
    Ends (fun n => u.orStays (.var v) (body n)) V := by
  obtain ⟨o, V₁, hstays, hseen, hnone⟩ :=
    stays_settles (V := V) (v := v) (backEdge_settles (u := u) s _)
  have hV : V.all ⊆ V₁.all := Visited.all_of_seen hseen
  refine Ends.after hstays hV ?_
  cases o with
  | some back => exact .pure back
  | none =>
    refine h V₁ hV fun hs => ?_
    rw [hseen]
    exact hnone rfl hs

theorem applyInner_free {s : Srt} {v : ℕ} (h : u.core.get s v = none) (n : ℕ) :
    u.applyInner (n + 1) (.var v : Term s) = u.orStays (.var v) (Pure.pure (.var (u.core.root s v))) := by
  have hres : u.resolve (.var v : Term s) = .var (u.core.root s v) := by
    rw [core_resolve, Core.resolve_free _ h]
  cases s with
  | ty =>
    refine congrArg (Run.bind _) (funext fun o => ?_)
    rw [hres]
    cases o <;> rfl
  | comp =>
    refine congrArg (Run.bind _) (funext fun o => ?_)
    rw [hres]
    cases o <;> rfl
  | row =>
    unfold applyInner applyRowInner
    refine congrArg (Run.bind _) (funext fun o => ?_)
    rw [hres]
    cases o <;> rfl

/-- A bound variable is what it stays as, or the expansion of its structure. -/
theorem applyInner_bound {s : Srt} {v : ℕ} {b : Struct (Term s)} (h : u.core.get s v = some b)
    (n : ℕ) : u.applyInner (n + 1) (.var v : Term s) = u.orStays (.var v)
      (if s = .row then u.applyInner (n + 1) b.val
        else u.expanding (.var v) (u.applyInner (n + 1) b.val)) := by
  have hres : u.resolve (.var v : Term s) = b.val := by
    rw [core_resolve, Core.resolve_bound _ h]
  obtain ⟨t, ht⟩ := b
  cases s with
  | ty =>
    refine congrArg (Run.bind _) (funext fun o => ?_)
    rw [hres]
    cases o with
    | some back => rfl
    | none => cases t with
      | var w => cases ht
      | _ => rfl
  | comp =>
    refine congrArg (Run.bind _) (funext fun o => ?_)
    rw [hres]
    cases o with
    | some back => rfl
    | none => cases t with
      | var w => cases ht
      | _ => rfl
  | row =>
    unfold applyInner applyRowInner
    refine congrArg (Run.bind _) (funext fun o => ?_)
    rw [hres]
    cases o with
    | some back => rfl
    | none => cases t with
      | var w => cases ht
      | _ => rfl

/-- Substitution ends at every term, from whatever marks. -/
theorem applyInner_ends (hc : u.core.Acyclic) (x : Node) (V : Visited) :
    Ends (fun n => u.applyInner n x.2) V := by
  refine hc.walk Visited.all (P := fun x V => Ends (fun n => u.applyInner n x.2) V) ?_ ?_ ?_ x V
  · intro x V hx ih
    exact applyInner_struct hx ih
  · intro v V ih
    cases hb : u.core.get .row v with
    | none => exact (orStays_ends fun _ _ _ => .pure _).succ fun n => by rw [applyInner_free hb]
    | some b =>
      have hbody : ∀ V', V.all ⊆ V'.all → (Srt.row ≠ .row → u.root .row v ∉ V'.seen .row) →
          Ends (fun n => u.applyInner (n + 1) b.val) V' :=
        fun V' hV _ => (ih b hb V' hV).shift
      refine (orStays_ends hbody).succ fun n => ?_
      rw [applyInner_bound hb, if_pos rfl]
  · intro s v V hs ih
    cases hb : u.core.get s v with
    | none => exact (orStays_ends fun _ _ _ => .pure _).succ fun n => by rw [applyInner_free hb]
    | some b =>
      have hbody : ∀ V', V.all ⊆ V'.all → (s ≠ .row → u.root s v ∉ V'.seen s) →
          Ends (fun n => u.expanding (.var v) (u.applyInner (n + 1) b.val)) V' := by
        intro V₁ h₁ hn
        have hnew : (s, u.core.anchor s v) ∉ V.all :=
          fun hm => hn hs (Visited.mem_all.mp (h₁ hm)).2
        refine expanding_ends hs (hn hs) fun V₂ h₂ => Ends.shift (x := fun n => u.applyInner n b.val) ?_
        exact ih (Core.anchor_lt hb) hnew ⟨s, b.val⟩ V₂ ((Finset.insert_subset_insert _ h₁).trans h₂)
      refine (orStays_ends hbody).succ fun n => ?_
      rw [applyInner_bound hb, if_neg hs]

/-! ## Free variables -/

theorem reach_children {l : List Node} {V : Visited} (met : List Var)
    (h : ∀ y ∈ l, ∀ V', V.all ⊆ V'.all → Ends (fun n => u.reach n y.2) V') :
    Ends (fun n => l.foldlM (fun met c => do
      let more ← u.reach n c.2
      Pure.pure (met ++ more)) met) V := by
  induction l generalizing V met with
  | nil => exact .pure met
  | cons y l ih =>
    simp only [List.foldlM_cons]
    refine ((h y (List.mem_cons_self ..) V subset_rfl).map _).bind fun met' V₁ h₁ => ?_
    exact ih met' fun z hz V₂ h₂ => h z (List.mem_cons_of_mem _ hz) V₂ (h₁.trans h₂)

theorem reach_struct {s : Srt} {t : Term s} (ht : t.asVar = none)
    (h : ∀ y ∈ t.children, ∀ V', V.all ⊆ V'.all → Ends (fun n => u.reach n y.2) V') :
    Ends (fun n => u.reach n t) V := by
  refine (reach_children (u.gradeVarOf t) h).succ fun n => ?_
  rw [reach, view_eq_inr (b := ⟨t, ht⟩) |>.mpr rfl]

theorem expands_spec (s : Srt) (r : ℕ) : ∃ o V', expands s r V = some (.ok o, V') ∧
    V.all ⊆ V'.all ∧
    (o = true → s ≠ .row → (s, r) ∉ V.all ∧ Insert.insert (s, r) V.all ⊆ V'.all) := by
  by_cases hs : s = .row
  · subst hs
    exact ⟨true, V, rfl, subset_rfl, fun _ h => (h rfl).elim⟩
  · have heq : expands s r V = some (.ok (decide (r ∉ V.seen s)), V.insert s r) := by
      cases s with
      | row => exact (hs rfl).elim
      | ty => rfl
      | comp => rfl
    have hall := Visited.all_insert (V := V) (r := r) hs
    refine ⟨_, _, heq, ?_, fun ho _ => ⟨fun hm => ?_, ?_⟩⟩
    · rw [hall]
      exact Finset.subset_insert _ _
    · exact of_decide_eq_true ho (Visited.mem_all.mp hm).2
    · rw [hall]

/-- What a search meets from a root on. -/
def reachFrom (u : Unifier) (s : Srt) (r : ℕ) (n : ℕ) (go : Bool) : Walk (List Var) :=
  if go then
    match u.getRef s r with
    | some t => do
        let met ← u.reach n t
        Pure.pure (.term s r :: met)
    | none => Pure.pure [.term s r]
  else Pure.pure [.term s r]

theorem getRef_root (u : Unifier) (s : Srt) (v : ℕ) : u.getRef s (u.root s v) = u.getRef s v := by
  show Store.getRef _ ((u.terms s).slots.anchor v) = Store.getRef _ v
  unfold Store.getRef Store.root
  rw [UnionFind.Slots.anchor_anchor]

theorem reach_var {s : Srt} {v : ℕ} {V : Visited}
    (h : ∀ t, u.getRef s v = some t → ∀ V', V.all ⊆ V'.all →
      (s ≠ .row → (s, u.core.anchor s v) ∉ V.all ∧
        Insert.insert (s, u.core.anchor s v) V.all ⊆ V'.all) →
      Ends (fun n => u.reach n t) V') :
    Ends (fun n => u.reach n (.var v : Term s)) V := by
  obtain ⟨o, V₁, hexp, hV, hnew⟩ := expands_spec (V := V) s (u.root s v)
  have hfrom : Ends (fun n => u.reachFrom s (u.root s v) n o) V₁ := by
    unfold reachFrom
    cases o with
    | false => exact .pure _
    | true =>
      rw [getRef_root]
      cases ht : u.getRef s v with
      | none => exact .pure _
      | some t => exact (h t ht V₁ hV (hnew rfl)).map _
  refine (Ends.after (f := u.reachFrom s (u.root s v)) hexp hV hfrom).succ fun n => ?_
  rw [reach, view_var]
  rfl

theorem reach_ends (hc : u.core.Acyclic) (x : Node) (V : Visited) :
    Ends (fun n => u.reach n x.2) V := by
  refine hc.walk Visited.all (P := fun x V => Ends (fun n => u.reach n x.2) V) ?_ ?_ ?_ x V
  · intro x V hx ih
    exact reach_struct hx ih
  · intro v V ih
    refine reach_var fun t ht V' hV _ => ?_
    obtain ⟨b, hb, rfl⟩ := Store.get_of_getRef (hc.plain v) ht
    exact ih b hb V' hV
  · intro s v V hs ih
    refine reach_var fun t ht V' hV hnew => ?_
    obtain ⟨hnot, hins⟩ := hnew hs
    exact ih (Store.root_lt ht) hnot ⟨s, t⟩ V' hins

/-! ## Spines -/

theorem rowSpine_of_spine {r : Row} {ls : List Label} {v : Option RowVar}
    (h : u.core.Spine r ls v) : ∃ n, ∀ m, n ≤ m → u.rowSpine m r = some (ls, v) := by
  induction h with
  | closed hr =>
    refine ⟨1, fun m hm => ?_⟩
    obtain ⟨k, rfl⟩ := Nat.exists_eq_add_of_le' hm
    rw [rowSpine, core_resolve, hr]
  | opened hr =>
    refine ⟨1, fun m hm => ?_⟩
    obtain ⟨k, rfl⟩ := Nat.exists_eq_add_of_le' hm
    rw [rowSpine, core_resolve, hr]
  | field hr _ ih =>
    obtain ⟨n, hn⟩ := ih
    refine ⟨n + 1, fun m hm => ?_⟩
    obtain ⟨k, rfl⟩ := Nat.exists_eq_add_of_le' (Nat.le_of_add_left_le hm)
    have hk := hn k (by omega)
    rw [rowSpine, core_resolve, hr]
    show (u.rowSpine k _).map _ = _
    rw [hk]
    rfl

end Unifier

namespace Core

theorem Spine.of_resolve {c : Core} {r r' : Row} {ls : List Label} {v : Option RowVar}
    (h : c.Spine r ls v) (hr : c.resolve r' = c.resolve r) : c.Spine r' ls v := by
  cases h with
  | closed h => exact .closed (hr.trans h)
  | opened h => exact .opened (hr.trans h)
  | field h hs => exact .field (hr.trans h) hs

/-- The edges down a row go through no type or computation variable. -/
theorem Acyclic.spine {c : Core} (h : c.Acyclic) (r : Row) : ∃ ls v, c.Spine r ls v := by
  have hmain : ∀ x : Node, ∀ r : Row, x = ⟨.row, r⟩ → ∃ ls v, c.Spine r ls v := by
    intro x
    induction x using h.row.induction with
    | h x ih =>
      rintro r rfl
      cases r with
      | empty => exact ⟨[], none, .closed (resolve_struct c ⟨.empty, rfl⟩)⟩
      | extend l t rest =>
        have hedge : c.Edge rowNode ⟨.row, .extend l t rest⟩ ⟨.row, rest⟩ :=
          ⟨Or.inl rfl, .child (by simp [Term.children])⟩
        obtain ⟨ls, v, hs⟩ := ih _ hedge rest rfl
        exact ⟨l :: ls, v, .field (resolve_struct c ⟨.extend l t rest, rfl⟩) hs⟩
      | var v =>
        cases hb : c.get .row v with
        | none => exact ⟨[], some _, .opened (resolve_free c hb)⟩
        | some b =>
          have hedge : c.Edge rowNode ⟨.row, .var v⟩ ⟨.row, b.val⟩ := ⟨Or.inl rfl, .bound hb⟩
          obtain ⟨ls, v', hs⟩ := ih _ hedge b.val rfl
          refine ⟨ls, v', hs.of_resolve ?_⟩
          rw [resolve_bound c hb, resolve_struct]
  exact hmain _ r rfl

end Core

/-! ## Every reachable store -/

/-- Every cycle crosses a type or computation variable, rows are finite, and the
walks end, whatever was overlooked. -/
theorem Core.Acyclic.walks_end {u : Unifier} (hc : u.core.Acyclic) :
    (∀ (x : Node) (l : List Node), List.IsChain u.core.Succ (x :: l ++ [x]) →
      ∃ s v, s ≠ .row ∧ (⟨s, .var v⟩ : Node) ∈ x :: l) ∧
    (∀ r, ∃ ls v, u.core.Spine r ls v ∧ ∃ n, ∀ m, n ≤ m → u.rowSpine m r = some (ls, v)) ∧
    (∀ t, ∃ t' n, ∀ m, n ≤ m → u.applyTy m t = some t') ∧
    (∀ t, ∃ t' n, ∀ m, n ≤ m → u.applyCompTy m t = some t') ∧
    (∀ t, ∃ t' n, ∀ m, n ≤ m → u.applyRow m t = some t') ∧
    ∀ (s : Srt) (t : Term s), ∃ vs n, ∀ m, n ≤ m → u.freeTerm m t = some vs := by
  refine ⟨fun x l hl => hc.rooted hl, fun r => ?_, fun t => ?_, fun t => ?_, fun t => ?_,
    fun s t => ?_⟩
  · obtain ⟨ls, v, hs⟩ := hc.spine r
    exact ⟨ls, v, hs, Unifier.rowSpine_of_spine hs⟩
  · obtain ⟨t', V, ⟨n, hn⟩, -⟩ := Unifier.applyInner_ends hc ⟨.ty, t⟩ .new
    refine ⟨t', n, fun m hm => ?_⟩
    have ht : u.applyTyInner m t .new = some (.ok t', V) := hn m hm
    rw [Unifier.applyTy, Unifier.quoted, ht]
  · obtain ⟨t', V, ⟨n, hn⟩, -⟩ := Unifier.applyInner_ends hc ⟨.comp, t⟩ .new
    refine ⟨t', n, fun m hm => ?_⟩
    have ht : u.applyCompTyInner m t .new = some (.ok t', V) := hn m hm
    rw [Unifier.applyCompTy, Unifier.quoted, ht]
  · obtain ⟨t', V, ⟨n, hn⟩, -⟩ := Unifier.applyInner_ends hc ⟨.row, t⟩ .new
    refine ⟨t', n, fun m hm => ?_⟩
    have ht : u.applyRowInner m t .new = some (.ok t', V) := hn m hm
    rw [Unifier.applyRow, Unifier.quoted, ht]
  · obtain ⟨vs, V, ⟨n, hn⟩, -⟩ := Unifier.reach_ends hc ⟨s, t⟩ .new
    refine ⟨vs.filter u.isUnbound, n, fun m hm => ?_⟩
    have ht : u.reach m t .new = some (.ok vs, V) := hn m hm
    rw [Unifier.freeTerm, ht]

/-- What a store owes to the checks its bindings passed, where none of them
overlooked the way back to its variable: every cycle crosses data and a type or
computation variable, rows are finite, and the walks end. -/
theorem reachable_walks_end {u : Unifier} (h : Reachable u) (ho : ¬ u.overlooked) :
    (∀ (x : Node) (l : List Node), List.IsChain u.core.Succ (x :: l ++ [x]) →
      (∃ y ∈ x :: l, y.2.isData = true) ∧ ∃ s v, s ≠ .row ∧ (⟨s, .var v⟩ : Node) ∈ x :: l) ∧
    (∀ r, ∃ ls v, u.core.Spine r ls v ∧ ∃ n, ∀ m, n ≤ m → u.rowSpine m r = some (ls, v)) ∧
    (∀ t, ∃ t' n, ∀ m, n ≤ m → u.applyTy m t = some t') ∧
    (∀ t, ∃ t' n, ∀ m, n ≤ m → u.applyCompTy m t = some t') ∧
    (∀ t, ∃ t' n, ∀ m, n ≤ m → u.applyRow m t = some t') ∧
    ∀ (s : Srt) (t : Term s), ∃ vs n, ∀ m, n ≤ m → u.freeTerm m t = some vs := by
  obtain ⟨hrooted, hrest⟩ := h.acyclic.walks_end
  exact ⟨fun x l hl => ⟨h.acyclic.crosses ho hl, hrooted x l hl⟩, hrest⟩

end Ral.Typecheck
