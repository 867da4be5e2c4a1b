import Ral.Typecheck.Machine

/-! # What the unifier's operations do to its core

Uniting, narrowing, binding and the guard of assumed pairs, each by the update
or the failure it leaves.
-/

namespace Ral.Typecheck
open Relation Run

/-! ## Steps on the unifier -/

namespace Act

variable {u : Unifier}

theorem sat_find {s : Srt} {v : ℕ} {Q : Except TypeErrorKind ℕ → Unifier → Prop}
    (h : ∀ u' : Unifier, u'.core = u.core → Q (.ok (u.core.anchor s v)) u') :
    Sat (find s v) u Q := by
  refine sat_act ?_
  rw [u.find_fst]
  exact h _ (u.core_find s v)

def Updates (c : Core) (next : Option Core) : Except TypeErrorKind Unit → Unifier → Prop
  | .ok _, u' => next = some u'.core
  | .error _, u' => u'.core = c

theorem sat_uniteTys {x y : TyVar} (hx : u.core.root .ty x = x) (hy : u.core.root .ty y = y)
    (hxy : x ≠ y) : Sat (uniteTys x y) u (Updates u.core
      (((u.core.kind x).meet (u.core.kind y)).map fun k => u.core.uniteTys x y k)) := by
  refine sat_bind (sat_find fun u₁ h₁ => sat_bind (sat_find fun u₂ h₂ => ?_))
  rw [h₁] at h₂ ⊢
  rw [u.core.anchor_of_root hx, u.core.anchor_of_root hy]
  simp only [then_ok, if_neg hxy]
  refine sat_bind (sat_get ?_)
  simp only [then_ok]
  have hkx : (u₂.kindAt x).kind = u.core.kind x := by
    rw [Unifier.core_kindAt, h₂, Core.kind, hx]
  have hky : (u₂.kindAt y).kind = u.core.kind y := by
    rw [Unifier.core_kindAt, h₂, Core.kind, hy]
  simp only [hkx, hky]
  cases hm : (u.core.kind x).meet (u.core.kind y) with
  | none => exact sat_fail h₂
  | some k =>
    refine sat_modify (congrArg some ?_)
    have hunite : (u₂.uniteTerms .ty x y).core = u.core.unite .ty x y := by
      rw [Unifier.core_uniteTerms u₂ (by rw [h₂]; exact hx) (by rw [h₂]; exact hy), h₂]
    have hroot : ((u₂.uniteTerms .ty x y).removeKind x).core.root .ty y = y := by
      rw [Unifier.core_removeKind, hunite]
      have hr := Core.root_unite (c := u.core) .ty x y y
      rw [hy] at hr
      simpa using hr
    rw [Unifier.core_installKind _ _ hroot, Unifier.core_removeKind, hunite]
    rfl

theorem sat_uniteTys_self {x : TyVar} :
    Sat (uniteTys x x) u fun r u' => r = .ok () ∧ u'.core = u.core := by
  refine sat_bind (sat_find fun u₁ h₁ => sat_bind (sat_find fun u₂ h₂ => ?_))
  rw [h₁] at h₂ ⊢
  simp only [then_ok, if_true]
  exact sat_pure ⟨rfl, h₂⟩

theorem sat_narrow {v : TyVar} (hv : u.core.root .ty v = v) {k : Kind} {w : Option Span} :
    Sat (narrow v k w) u (Updates u.core (u.core.narrow v k)) := by
  refine sat_bind (sat_find fun u₁ h₁ => sat_bind (sat_get ?_))
  rw [u.core.anchor_of_root hv]
  have hk : (u₁.kindAt v).kind = u.core.kind v := by
    rw [Unifier.core_kindAt, h₁, Core.kind, hv]
  simp only [then_ok, hk]
  unfold Core.narrow
  cases (u.core.kind v).meet k with
  | none => exact sat_fail h₁
  | some m =>
    by_cases hm : m = u.core.kind v
    · simp only [hm, if_true]
      refine sat_pure ?_
      simp [Updates, h₁]
    · simp only [hm, if_false]
      refine sat_modify (congrArg some ?_)
      have hroot : u₁.core.root .ty v = v := by rw [h₁, hv]
      rw [Unifier.core_installKind _ _ hroot, h₁]
      simp [hm, hv]

theorem sat_narrows {w : Option Span} (vs : List TyVar) (hvs : ∀ v ∈ vs, u.core.root .ty v = v) :
    Sat (vs.forM fun v => narrow v .DATA w) u fun r u' => match r with
      | .ok _ => u.core.imposeTys vs = some u'.core
      | .error _ => ∃ pre, pre <+: vs ∧ u.core.imposeTys pre = some u'.core := by
  induction vs generalizing u with
  | nil => exact sat_pure rfl
  | cons v vs ih =>
    refine sat_bind ((sat_narrow (hvs v (List.mem_cons_self ..))).mono fun r u₁ h => ?_)
    cases r with
    | error e => exact ⟨[], List.nil_prefix, congrArg some (h : u₁.core = u.core).symm⟩
    | ok _ =>
      have hn : u.core.narrow v .DATA = some u₁.core := h
      refine (ih fun x hx => ?_).mono fun r u₂ h₂ => ?_
      · rw [(Core.alike_narrow hn).root]
        exact hvs x (List.mem_cons_of_mem _ hx)
      cases r with
      | ok _ => simpa [Core.imposeTys, hn] using h₂
      | error e =>
        obtain ⟨pre, hpre, h₂⟩ := h₂
        exact ⟨v :: pre, List.cons_prefix_cons.mpr ⟨rfl, hpre⟩, by simpa [Core.imposeTys, hn] using h₂⟩

theorem sat_deepens {w : Option Span} (vs : List RowVar) :
    Sat (vs.forM fun v => do
      let root ← find .row v
      Run.modify fun u => u.deepen root w) u fun r u' =>
        r = .ok () ∧ u'.core = u.core.imposeRows vs := by
  induction vs generalizing u with
  | nil => exact sat_pure ⟨rfl, rfl⟩
  | cons v vs ih =>
    refine sat_bind (sat_bind (sat_find fun u₁ h₁ => sat_modify ?_))
    refine ih.mono fun r u₂ h₂ => ⟨h₂.1, h₂.2.trans ?_⟩
    rw [Unifier.core_deepen, h₁]
    rfl

theorem sat_imposeData {owed : Owed} {w : Option Span} (hfree : ∀ v ∈ owed.tys, u.core.Free .ty v) :
    Sat (imposeData owed w) u fun r u' => match r with
      | .ok _ => u.core.Imposes u'.core
      | .error _ => u.core.Aborts u'.core := by
  refine sat_bind ((sat_narrows owed.tys fun v hv => (hfree v hv).root).mono fun r u₁ h => ?_)
  cases r with
  | error e =>
    obtain ⟨pre, hpre, h⟩ := h
    exact ⟨pre, fun v hv => hfree v (hpre.subset hv), h⟩
  | ok _ =>
    refine (sat_deepens owed.rows).mono fun r u₂ h₂ => ?_
    obtain ⟨rfl, hc⟩ := h₂
    exact ⟨owed, u₁.core, hfree, h, hc.symm⟩

theorem sat_owing {x : Run TypeErrorKind DataWalk Unit} {seen : Finset TyVar}
    {Q : Except TypeErrorKind Owed → Unifier → Prop}
    (h : Sat x ⟨seen, ⟨[], []⟩⟩ fun r w => match r with
      | .ok _ => Q (.ok w.owed) u
      | .error e => Q (.error e) u) : Sat (owing x seen) u Q := by
  unfold owing
  cases hx : x ⟨seen, ⟨[], []⟩⟩ with
  | none => exact sat_stuck
  | some p =>
    obtain ⟨r, w⟩ := p
    have hq := h r w hx
    cases r with
    | ok _ => exact sat_pure hq
    | error e => exact sat_fail hq

theorem sat_markWeak {n : ℕ} {s : Srt} {t : Term s} {source : WeakSource} :
    Sat (markWeak n t source) u fun r u' => r = .ok () ∧ u'.core = u.core := by
  refine sat_bind (sat_get ?_)
  simp only [then_ok]
  split
  · exact sat_stuck
  · next free hfree =>
      refine sat_modify ⟨rfl, ?_⟩
      clear hfree
      induction free generalizing u with
      | nil => rfl
      | cons v vs ih =>
        rw [List.foldl_cons, ih]
        cases v with
        | term s v => exact u.core_markWeakVar s v source
        | grade v => rfl

theorem sat_weaken {n : ℕ} {s s' : Srt} {root : ℕ} {val : Term s'} :
    Sat (weaken n s root val) u fun r u' => r = .ok () ∧ u'.core = u.core := by
  refine sat_bind (sat_get ?_)
  simp only [then_ok]
  split
  · exact sat_markWeak
  · exact sat_pure ⟨rfl, rfl⟩

theorem sat_inheritWeak {s : Srt} {v : ℕ} {source : Option WeakSource} :
    Sat (inheritWeak s v source) u fun r u' => r = .ok () ∧ u'.core = u.core := by
  cases source with
  | none => exact sat_pure ⟨rfl, rfl⟩
  | some source => exact sat_modify ⟨rfl, u.core_markWeakVar s v source⟩

end Act

/-! ## Binding -/

theorem Visited.marks_empty : Visited.new.marks = fun _ => False :=
  funext fun m => propext (Visited.marks_new m)

theorem Core.Imposes.alike {c c' : Core} (h : c.Imposes c') : c.Alike c' := by
  obtain ⟨owed, c₁, -, htys, rfl⟩ := h
  exact (alike_imposeTys htys).trans (alike_imposeRows _)

theorem Core.Aborts.refl (c : Core) : c.Aborts c :=
  ⟨[], fun _ h => by simp at h, rfl⟩

namespace Act
open Typecheck.Core

variable {u : Unifier}

def Binds (c : Core) (binds : Core → Prop) : Except TypeErrorKind Unit → Unifier → Prop
  | .ok _, u' => binds u'.core
  | .error _, u' => c.Aborts u'.core

theorem sat_refuse {search : CycleVia → ℕ → Walk (Option CycleVia)} {depth : ℕ} {c : Core}
    {p bad : Node → Prop} {x : Node} {Q : Except TypeErrorKind Unit → Unifier → Prop}
    (hs : Sat (search .returns depth) Visited.new (Searched c p bad Option.isSome x Visited.new))
    (hok : ¬ c.Meets p bad x → Q (.ok ()) u) (herr : ∀ e, Q (.error e) u) :
    Sat (refuseDataFreeCycle search depth) u Q := by
  refine sat_bind (sat_lift fun r hr => ?_)
  obtain ⟨⟨r', V⟩, hv, rfl⟩ := Option.map_eq_some_iff.mp hr
  have h := hs r' V hv
  cases r' with
  | error e => exact herr e
  | ok found =>
    cases found with
    | some via => exact sat_fail (herr _)
    | none =>
      have hexp := h rfl
      rw [Visited.marks_empty] at hexp
      exact sat_pure (hok hexp.not_meets)

def Admits (c : Core) (x : TyVar) (val : Ty) (c' : Core) : Prop :=
  (∀ h, Head.of val = some h → h ∈ (c.kind x).heads) ∧
    ∃ c₁, ((c.kind x).deep = false ∧ c₁ = c ∨ (c.kind x).deep = true ∧ c.Imposes c₁) ∧
      c' = c₁.setKind x .any

theorem sat_admitTy {n d : ℕ} {x : TyVar} {val : Ty} (hx : u.core.Free .ty x) :
    Sat (admitTy n x val d) u (Binds u.core (Admits u.core x val)) := by
  have hkind : u.core.kind x = (u.core.kinds x).1 := by rw [kind, hx.root]
  refine sat_bind (sat_get ?_)
  simp only [then_ok]
  cases hk : u.kinds x with
  | none =>
    have hany : u.core.kinds x = .any := by simp [Unifier.core, hk]
    refine sat_pure ⟨fun h _ => ?_, u.core, Or.inl ⟨?_, rfl⟩, (setKind_any hany).symm⟩
    · rw [hkind, hany]
      exact Head.mem_every h
    · rw [hkind, hany]
      rfl
  | some kw =>
    obtain ⟨k, w⟩ := kw
    have hkx : u.core.kind x = k.1 := by
      rw [hkind]
      show (((u.kinds x).map Prod.fst).getD .any).1 = _
      rw [hk]
      rfl
    by_cases hhead : ((Head.of val).any fun head => !k.1.admits head) = true
    · simp only [hhead, if_true]
      refine sat_lift fun r hr => ?_
      obtain ⟨t, -, rfl⟩ := Option.map_eq_some_iff.mp hr
      exact Aborts.refl _
    · have hok : ∀ h, Head.of val = some h → h ∈ (u.core.kind x).heads := by
        intro h hval
        by_contra hn
        apply hhead
        rw [hkx] at hn
        simp [hval, Kind.admits, hn]
      simp only [hhead]
      cases hdeep : k.1.deep with
      | false =>
        simp only [Bool.false_eq_true, if_false]
        refine sat_bind (sat_pure (sat_modify ?_))
        refine ⟨hok, u.core, Or.inl ⟨by rw [hkx, hdeep], rfl⟩, ?_⟩
        rw [Unifier.core_removeKind]
      | true =>
        have howes := (u.data_owes_free w n).1 val d ⟨{x}, ⟨[], []⟩⟩ fun v hv => by simp at hv
        refine sat_bind (sat_owing (howes.mono fun r w' hfree => ?_))
        cases r with
        | error e => exact Aborts.refl _
        | ok _ =>
          refine sat_bind ((sat_imposeData (hfree rfl)).mono fun r u₁ h => ?_)
          cases r with
          | error e => exact h
          | ok _ =>
            refine sat_modify ⟨hok, u₁.core, Or.inr ⟨by rw [hkx, hdeep], h⟩, ?_⟩
            rw [Unifier.core_removeKind]

theorem sat_admitRow {n d : ℕ} {x : RowVar} {val : Row} (hx : u.core.Free .row x) :
    Sat (admitRow n x val d) u
      (Binds u.core fun c' => ∃ c₁, (u.core.deep x = false ∧ c₁ = u.core ∨
          u.core.deep x = true ∧ u.core.Imposes c₁) ∧ c' = c₁.setDeep x false) := by
  have hdeep : u.core.deep x = (u.deepRows x).isSome := by
    rw [deep, hx.root]
    rfl
  refine sat_bind (sat_get ?_)
  simp only [then_ok]
  cases hk : u.deepRows x with
  | none =>
    rw [hk] at hdeep
    refine sat_pure ⟨u.core, Or.inl ⟨hdeep, rfl⟩, (setDeep_false ?_).symm⟩
    rw [deep, hx.root] at hdeep
    exact hdeep
  | some w =>
    rw [hk] at hdeep
    have howes := (u.data_owes_free w n).2 val d ⟨∅, ⟨[], []⟩⟩ fun v hv => by simp at hv
    refine sat_bind (sat_owing (howes.mono fun r w' hfree => ?_))
    cases r with
    | error e => exact Aborts.refl _
    | ok _ =>
      refine sat_bind ((sat_imposeData (hfree rfl)).mono fun r u₁ h => ?_)
      cases r with
      | error e => exact h
      | ok _ => exact sat_modify ⟨u₁.core, Or.inr ⟨hdeep, h⟩, u₁.core_shallow x⟩

theorem sat_bindTy {n d : ℕ} {x : TyVar} {val : Struct Ty} (hx : u.core.Free .ty x) :
    Sat (bindTy n x val d) u (Binds u.core (u.core.BindsTy x val)) := by
  refine sat_bind (sat_find fun u₁ h₁ => sat_bind (sat_get (sat_bind ?_)))
  rw [hx.anchor]
  have hsearch := (u₁.reaches_spec ⟨.ty, x⟩ n).1 val.val .returns d Visited.new
  rw [h₁] at hsearch
  refine sat_refuse hsearch (fun hflow => sat_bind ?_) fun e => h₁ ▸ Aborts.refl _
  have hx₁ : u₁.core.Free .ty x := h₁ ▸ hx
  refine (sat_admitTy hx₁).mono fun r u₂ h₂ => ?_
  rw [h₁] at h₂
  cases r with
  | error e => exact h₂
  | ok _ =>
    obtain ⟨hhead, c₁, hc₁, hc₂⟩ := h₂
    refine sat_bind (sat_weaken.mono fun r u₃ h₃ => ?_)
    obtain ⟨rfl, h₃⟩ := h₃
    refine sat_modify ⟨c₁, hflow, hhead, hc₁, ?_⟩
    have hroot : (u₃.noteBound x).core.root .ty x = x := by
      rw [Unifier.core_noteBound, h₃, hc₂, root_setKind]
      rcases hc₁ with ⟨-, rfl⟩ | ⟨-, himp⟩
      · exact hx.root
      · rw [himp.alike.root, hx.root]
    rw [Unifier.core_overlook, Unifier.core_bindTerm _ _ hroot, Unifier.core_noteBound, h₃, hc₂, h₁]

theorem sat_bindCompTy {n d : ℕ} {x : CompTyVar} {val : Struct CompTy}
    (hx : u.core.Free .comp x) : Sat (bindCompTy n x val d) u
      (Binds u.core (u.core.BindsComp x val)) := by
  refine sat_bind (sat_find fun u₁ h₁ => sat_bind (sat_get (sat_bind ?_)))
  rw [hx.anchor]
  have hsearch := (u₁.reaches_spec ⟨.comp, x⟩ n).2 val.val .returns d Visited.new
  rw [h₁] at hsearch
  refine sat_refuse hsearch (fun hflow => sat_bind ?_) fun e => h₁ ▸ Aborts.refl _
  refine sat_weaken.mono fun r u₂ h₂ => ?_
  obtain ⟨rfl, h₂⟩ := h₂
  refine sat_modify ⟨hflow, ?_⟩
  have hroot : u₂.core.root .comp x = x := by rw [h₂, h₁, hx.root]
  rw [Unifier.core_overlook, Unifier.core_bindTerm _ _ hroot, h₂, h₁]

theorem sat_bindRow {n d : ℕ} {x : RowVar} {val : Struct Row} {weak : Option WeakSource}
    (hx : u.core.Free .row x) :
    Sat (bindRow n x val weak d) u (Binds u.core (u.core.BindsRow x val)) := by
  refine sat_bind (sat_inheritWeak.mono fun r u₁ h₁ => ?_)
  obtain ⟨rfl, h₁⟩ := h₁
  refine sat_bind (sat_get (sat_bind (sat_lift fun r hr => ?_)))
  obtain ⟨⟨r', V⟩, hv, rfl⟩ := Option.map_eq_some_iff.mp hr
  have hx₁ : u₁.core.Free .row x := h₁ ▸ hx
  have h := (u₁.occurs_spec hx₁ n).1 val.val d Visited.new r' V hv
  rw [h₁] at h
  cases r' with
  | error e => exact h₁ ▸ Aborts.refl _
  | ok inside =>
    cases inside with
    | true => exact sat_fail (h₁ ▸ Aborts.refl _)
    | false =>
      have hexp := h rfl
      rw [Visited.marks_empty] at hexp
      refine sat_bind (sat_find fun u₂ h₂ => sat_bind ?_)
      rw [hx₁.anchor]
      have hx₂ : u₂.core.Free .row x := h₂ ▸ hx₁
      refine (sat_admitRow hx₂).mono fun r u₃ h₃ => ?_
      rw [h₂, h₁] at h₃
      cases r with
      | error e => exact h₃
      | ok _ =>
        obtain ⟨c₁, hc₁, hc₂⟩ := h₃
        refine sat_bind (sat_weaken.mono fun r u₄ h₄ => ?_)
        obtain ⟨rfl, h₄⟩ := h₄
        refine sat_modify ⟨c₁, hexp.not_meets, hc₁, ?_⟩
        have hroot : u₄.core.root .row x = x := by
          rw [h₄, hc₂, root_setDeep]
          rcases hc₁ with ⟨-, rfl⟩ | ⟨-, himp⟩
          · exact hx.root
          · rw [himp.alike.root, hx.root]
        rw [Unifier.core_bindTerm _ _ hroot, h₄, hc₂]

end Act

/-! ## Assumptions -/

theorem sat_key {s : Srt} (t : Term s) (d : ℕ) (u : Unifier) :
    Sat (Unifier.key t d) u fun r u' => u'.core = u.core ∧ match r with
      | .ok k => k = u.core.key t
      | .error _ => True := by
  induction t generalizing d u with
  | var v => exact sat_bind (Act.sat_find fun u₁ h₁ => sat_pure ⟨h₁, rfl⟩)
  | unit | bytes | bool | int | float | string | empty => exact sat_pure ⟨rfl, rfl⟩
  | list a ih | map a ih | record a ih | variant a ih | thunk a ih =>
    refine sat_bind (sat_deeper (sat_bind ((ih (d + 1) u).mono fun r u₁ h => ?_)) ⟨rfl, trivial⟩)
    cases r with
    | error e => exact h
    | ok k => exact sat_pure ⟨h.1, by rw [h.2]; rfl⟩
  | handle g a ih | ret g a ih =>
    refine sat_bind (sat_get (sat_bind (sat_deeper (sat_bind ?_) ⟨rfl, trivial⟩)))
    refine (ih (d + 1) u).mono fun r u₁ h => ?_
    cases r with
    | error e => exact h
    | ok k => exact sat_pure ⟨h.1, by rw [h.2, Unifier.core_resolveGrade]; rfl⟩
  | func a b iha ihb =>
    refine sat_bind (sat_deeper (sat_bind ((iha (d + 1) u).mono fun r u₁ h => ?_)) ⟨rfl, trivial⟩)
    cases r with
    | error e => exact h
    | ok k =>
      refine sat_bind (sat_deeper (sat_bind ?_) ⟨h.1, trivial⟩)
      refine (ihb (d + 1) u₁).mono fun r u₂ h₂ => ?_
      rw [h.1] at h₂
      cases r with
      | error e => exact h₂
      | ok k' => exact sat_pure ⟨h₂.1, by rw [h.2, h₂.2]; rfl⟩
  | extend l a b iha ihb =>
    refine sat_bind (sat_deeper (sat_bind ((iha (d + 1) u).mono fun r u₁ h => ?_)) ⟨rfl, trivial⟩)
    cases r with
    | error e => exact h
    | ok k =>
      refine sat_bind ((ihb d u₁).mono fun r u₂ h₂ => ?_)
      rw [h.1] at h₂
      cases r with
      | error e => exact h₂
      | ok k' => exact sat_pure ⟨h₂.1, by rw [h.2, h₂.2]; rfl⟩

/-- Every pair in progress is assumed, either way round. -/
structure Pairs.Within (p : Pairs) (P : Assumed) : Prop where
  roots : ∀ s x y, (x, y) ∈ p.roots s → P s (.var x) (.var y) ∧ P s (.var y) (.var x)
  expansions : ∀ s r k, (r, k) ∈ p.expansions s → P s (.var r) k ∧ P s k (.var r)

theorem Pairs.Within.mono {p : Pairs} {P P' : Assumed} (h : p.Within P)
    (hP : ∀ s x y, P s x y → P' s x y) : p.Within P' :=
  ⟨fun s x y hm => (h.roots s x y hm).imp (hP _ _ _) (hP _ _ _),
    fun s r k hm => (h.expansions s r k hm).imp (hP _ _ _) (hP _ _ _)⟩

theorem Pairs.Within.add {p : Pairs} {P : Assumed} (h : p.Within P) {s : Srt} (a b : Term s) :
    p.Within (P.add a b) :=
  h.mono fun _ _ _ => Assumed.le_add

theorem Pairs.within_new (P : Assumed) : Pairs.new.Within P :=
  ⟨fun _ _ _ h => by simp [Pairs.new] at h, fun _ _ _ h => by simp [Pairs.new] at h⟩

namespace Solve

variable {st : Solving}

theorem sat_act {α : Type} {x : Act α} {Q : Except TypeErrorKind α → Solving → Prop}
    (h : Sat x st.u fun r u => Q r ⟨u, st.pairs⟩) : Sat (act x) st Q := sat_zoom h

theorem sat_unifier {Q : Except TypeErrorKind Unifier → Solving → Prop} (h : Q (.ok st.u) st) :
    Sat unifier st Q := by
  intro r s' hx
  cases hx
  exact h

def Guarded {s : Srt} (P : Assumed) (a b : Term s) (c : Core) :
    Except TypeErrorKind Bool → Solving → Prop
  | .ok true, st' => st'.u.core = c ∧ st'.pairs.Within P ∧
      ((∃ x y, a = .var x ∧ b = .var y ∧ c.anchor s x = c.anchor s y) ∨ P s (c.key a) (c.key b))
  | .ok false, st' => st'.u.core = c ∧ st'.pairs.Within (P.add (c.key a) (c.key b))
  | .error _, st' => st'.u.core = c

theorem sat_guardPair {s : Srt} {P : Assumed} {x y : ℕ} {c : Core} (hc : st.u.core = c)
    (hP : st.pairs.Within P) : Sat (guardPair s (c.anchor s x) (c.anchor s y)) st
      (Guarded P (.var x : Term s) (.var y) c) := by
  refine Run.sat_act ?_
  by_cases he : c.anchor s x = c.anchor s y
  · simp only [he, if_true]
    exact ⟨hc, hP, Or.inl ⟨x, y, rfl, rfl, he⟩⟩
  · have hkey : ∀ v, c.key (.var v : Term s) = .var (c.anchor s v) := fun v => by cases s <;> rfl
    have hmem : ∀ p, p = orderedPair (c.anchor s x) (c.anchor s y) →
        p = (c.anchor s x, c.anchor s y) ∨ p = (c.anchor s y, c.anchor s x) := by
      rintro p rfl
      unfold orderedPair
      split
      · exact Or.inl rfl
      · exact Or.inr rfl
    have hwithin : ∀ Q : Assumed, st.pairs.Within Q → Q s (.var (c.anchor s x)) (.var (c.anchor s y)) →
        Q s (.var (c.anchor s y)) (.var (c.anchor s x)) →
        Pairs.Within { st.pairs with
          roots := Function.update st.pairs.roots s
            (insert (orderedPair (c.anchor s x) (c.anchor s y)) (st.pairs.roots s)) } Q := by
      intro Q hQ hxy hyx
      refine ⟨fun s' v w hm => ?_, hQ.expansions⟩
      by_cases hs : s' = s
      · subst hs
        simp only [Function.update_self, Finset.mem_insert] at hm
        rcases hm with hm | hm
        · rcases hmem _ hm with hp | hp
          · cases hp
            exact ⟨hxy, hyx⟩
          · cases hp
            exact ⟨hyx, hxy⟩
        · exact hQ.roots s' v w hm
      · simp only [Function.update_of_ne hs] at hm
        exact hQ.roots s' v w hm
    simp only [he, if_false]
    by_cases hin : orderedPair (c.anchor s x) (c.anchor s y) ∈ st.pairs.roots s
    · have hpair : P s (.var (c.anchor s x)) (.var (c.anchor s y)) ∧
          P s (.var (c.anchor s y)) (.var (c.anchor s x)) := by
        rcases hmem _ rfl with hp | hp
        · rw [hp] at hin
          exact hP.roots s _ _ hin
        · rw [hp] at hin
          exact (hP.roots s _ _ hin).symm
      simp only [hin, decide_true]
      refine ⟨hc, hwithin P hP hpair.1 hpair.2, Or.inr ?_⟩
      rw [hkey, hkey]
      exact hpair.1
    · simp only [hin, decide_false]
      refine ⟨hc, hwithin _ (hP.add _ _) ?_ ?_⟩
      · exact Assumed.add_self.mpr (Or.inr (Or.inl ⟨(hkey x).symm, (hkey y).symm⟩))
      · exact Assumed.add_self.mpr (Or.inr (Or.inr ⟨(hkey y).symm, (hkey x).symm⟩))

theorem sat_guardExpansion {s : Srt} {P : Assumed} {x : ℕ} {b : Struct (Term s)} {c : Core}
    (hc : st.u.core = c) (hP : st.pairs.Within P) :
    Sat (guardExpansion s (c.anchor s x) (c.key b.val)) st (fun r st' =>
      Guarded P (.var x : Term s) b.val c r st' ∧ Guarded P b.val (.var x : Term s) c r st') := by
  refine Run.sat_act ?_
  have hkey : c.key (.var x : Term s) = .var (c.anchor s x) := by cases s <;> rfl
  have hwithin : ∀ Q : Assumed, st.pairs.Within Q → Q s (.var (c.anchor s x)) (c.key b.val) →
      Q s (c.key b.val) (.var (c.anchor s x)) →
      Pairs.Within { st.pairs with
        expansions := Function.update st.pairs.expansions s
          (insert (c.anchor s x, c.key b.val) (st.pairs.expansions s)) } Q := by
    intro Q hQ hxy hyx
    refine ⟨hQ.roots, fun s' r k hm => ?_⟩
    by_cases hs : s' = s
    · subst hs
      simp only [Function.update_self, Finset.mem_insert] at hm
      rcases hm with hm | hm
      · cases hm
        exact ⟨hxy, hyx⟩
      · exact hQ.expansions s' r k hm
    · simp only [Function.update_of_ne hs] at hm
      exact hQ.expansions s' r k hm
  by_cases hin : (c.anchor s x, c.key b.val) ∈ st.pairs.expansions s
  · have hpair := hP.expansions s _ _ hin
    simp only [hin, decide_true]
    refine ⟨⟨hc, hwithin P hP hpair.1 hpair.2, Or.inr ?_⟩,
      ⟨hc, hwithin P hP hpair.1 hpair.2, Or.inr ?_⟩⟩
    · rw [hkey]
      exact hpair.1
    · rw [hkey]
      exact hpair.2
  · simp only [hin, decide_false]
    refine ⟨⟨hc, hwithin _ (hP.add _ _) ?_ ?_⟩, ⟨hc, hwithin _ (hP.add _ _) ?_ ?_⟩⟩
    · exact Assumed.add_self.mpr (Or.inr (Or.inl ⟨hkey.symm, rfl⟩))
    · exact Assumed.add_self.mpr (Or.inr (Or.inr ⟨rfl, hkey.symm⟩))
    · exact Assumed.add_self.mpr (Or.inr (Or.inr ⟨hkey.symm, rfl⟩))
    · exact Assumed.add_self.mpr (Or.inr (Or.inl ⟨rfl, hkey.symm⟩))

theorem sat_assumed {s : Srt} {P : Assumed} (a b : Term s) (d : ℕ) (hP : st.pairs.Within P) :
    Sat (assumed a b d) st (Guarded P a b st.u.core) := by
  unfold assumed
  cases ha : view a with
  | inl x =>
    obtain rfl := view_eq_inl.mp ha
    cases hb : view b with
    | inl y =>
      obtain rfl := view_eq_inl.mp hb
      refine sat_bind (sat_act (Act.sat_find fun u₁ h₁ => ?_))
      refine sat_bind (sat_act (Act.sat_find fun u₂ h₂ => ?_))
      simp only [then_ok, h₁]
      exact sat_guardPair (h₂.trans h₁) hP
    | inr b =>
      obtain rfl := view_eq_inr.mp hb
      refine sat_bind (sat_act (Act.sat_find fun u₁ h₁ => ?_))
      refine sat_bind (sat_act ((sat_key b.val d u₁).mono fun r u₂ h₂ => ?_))
      rw [h₁] at h₂
      cases r with
      | error e => exact h₂.1
      | ok k =>
        obtain ⟨hc, rfl⟩ := h₂
        have hp : (⟨u₂, st.pairs⟩ : Solving).pairs.Within P := hP
        exact (sat_guardExpansion hc hp).mono fun r st' h => h.1
  | inr a =>
    obtain rfl := view_eq_inr.mp ha
    cases hb : view b with
    | inl y =>
      obtain rfl := view_eq_inl.mp hb
      refine sat_bind (sat_act (Act.sat_find fun u₁ h₁ => ?_))
      refine sat_bind (sat_act ((sat_key a.val d u₁).mono fun r u₂ h₂ => ?_))
      rw [h₁] at h₂
      cases r with
      | error e => exact h₂.1
      | ok k =>
        obtain ⟨hc, rfl⟩ := h₂
        have hp : (⟨u₂, st.pairs⟩ : Solving).pairs.Within P := hP
        exact (sat_guardExpansion hc hp).mono fun r st' h => h.2
    | inr b =>
      obtain rfl := view_eq_inr.mp hb
      exact sat_pure ⟨rfl, hP.add _ _⟩

end Solve

end Ral.Typecheck
