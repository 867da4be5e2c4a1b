import Ral.Typecheck.Effects

/-! # The unifier runs the machine

A unification that returns is a run of the machine to the end of its equation,
one that fails a run that stops before it. The induction is on fuel, over the
algorithm's five functions at once.
-/

namespace Ral.Typecheck
open Relation Run

/-! ## Outcomes as runs -/

def Solves (new : List Task) (c : Core) (P : Assumed) :
    Except TypeErrorKind Unit → Solving → Prop
  | .ok _, st => ∃ P', st.pairs.Within P' ∧ ∀ ts, Steps ⟨new ++ ts, c, P⟩ ⟨ts, st.u.core, P'⟩
  | .error _, st => ∃ rest c' P', (∀ ts, Steps ⟨new ++ ts, c, P⟩ ⟨rest ++ ts, c', P'⟩) ∧
      c'.Aborts st.u.core

namespace Solves

variable {new new' : List Task} {c c' : Core} {P P' : Assumed} {st st' : Solving} {t : Task}

theorem andThen {r : Except TypeErrorKind Unit}
    (h : ∀ ts, Steps ⟨new ++ ts, c, P⟩ ⟨ts, st.u.core, P'⟩)
    (h' : Solves new' st.u.core P' r st') : Solves (new ++ new') c P r st' := by
  cases r with
  | ok _ =>
    obtain ⟨P'', hw, hs⟩ := h'
    refine ⟨P'', hw, fun ts => ?_⟩
    rw [List.append_assoc]
    exact (h _).trans (hs ts)
  | error e =>
    obtain ⟨rest, c₁, P₁, hs, ha⟩ := h'
    refine ⟨rest, c₁, P₁, fun ts => ?_, ha⟩
    rw [List.append_assoc]
    exact (h _).trans (hs ts)

theorem error_append {e : TypeErrorKind} (h : Solves new c P (.error e) st) (new' : List Task) :
    Solves (new ++ new') c P (.error e) st := by
  obtain ⟨rest, c₁, P₁, hs, ha⟩ := h
  refine ⟨rest ++ new', c₁, P₁, fun ts => ?_, ha⟩
  rw [List.append_assoc, List.append_assoc]
  exact hs (new' ++ ts)

theorem step {r : Except TypeErrorKind Unit}
    (hs : ∀ ts, Step ⟨t :: ts, c, P⟩ ⟨new ++ ts, c', P'⟩) (h : Solves new c' P' r st) :
    Solves [t] c P r st := by
  cases r with
  | ok _ =>
    obtain ⟨P'', hw, hrun⟩ := h
    exact ⟨P'', hw, fun ts => ReflTransGen.head (hs ts) (hrun ts)⟩
  | error e =>
    obtain ⟨rest, c₁, P₁, hrun, ha⟩ := h
    exact ⟨rest, c₁, P₁, fun ts => ReflTransGen.head (hs ts) (hrun ts), ha⟩

theorem last (hs : ∀ ts, Step ⟨t :: ts, c, P⟩ ⟨ts, st.u.core, P'⟩) (hP : st.pairs.Within P') :
    Solves [t] c P (.ok ()) st :=
  ⟨P', hP, fun ts => .single (hs ts)⟩

theorem fail (e : TypeErrorKind) (ha : c.Aborts st.u.core) : Solves new c P (.error e) st :=
  ⟨new, c, P, fun _ => .refl, ha⟩

theorem bind {binds : Core → Prop} {r : Except TypeErrorKind Unit} (h : Act.Binds c binds r st.u)
    (hs : ∀ c', binds c' → ∀ ts, Step ⟨t :: ts, c, P⟩ ⟨ts, c', P'⟩) (hP : st.pairs.Within P') :
    Solves [t] c P r st := by
  cases r with
  | ok _ => exact last (hs _ h) hP
  | error e => exact fail e h

end Solves

/-! ## Spines and grades -/

namespace Unifier
variable (u : Unifier)

theorem rowSpine_spec {n : ℕ} {r : Row} {ls : List Label} {v : Option RowVar}
    (h : u.rowSpine n r = some (ls, v)) : u.core.Spine r ls v := by
  induction n generalizing r ls with
  | zero => cases h
  | succ n ih =>
    rw [rowSpine, core_resolve] at h
    cases hr : u.core.resolve r with
    | var w =>
      rw [hr] at h
      cases h
      exact .opened hr
    | empty =>
      rw [hr] at h
      cases h
      exact .closed hr
    | extend l t rest =>
      rw [hr] at h
      obtain ⟨⟨ls', v'⟩, hrest, he⟩ := Option.map_eq_some_iff.mp h
      cases he
      exact .field hr (ih hrest)

theorem resolveCompTy_eq (t : CompTy) : u.resolveCompTy t = u.core.regraded (u.core.resolve t) := by
  unfold resolveCompTy Core.regraded
  rw [core_resolve]
  cases u.core.resolve t <;> simp

theorem admitsUnit_eq (t : Ty) :
    u.admitsUnit (u.core.resolve t) = u.core.admitsUnit (u.core.resolve t) := by
  cases ht : u.core.resolve t with
  | var v => exact congrArg (Kind.admits · .unit) (u.core_kinded (u.core.free_of_resolve ht).1.root)
  | _ => rfl

theorem clashOnTail_of_not_perm {v : RowVar} {left right : List Label} (h : ¬ left.Perm right) :
    clashOnTail (left, some v) (right, some v) = true := by
  simp [clashOnTail, h]

end Unifier

theorem Core.resolveGrade_resolveGrade (c : Core) (g : Grade) :
    c.resolveGrade (c.resolveGrade g) = c.resolveGrade g := headIn_headIn _ g

theorem Core.regraded_eq_var {c : Core} {t : CompTy} {v : ℕ} :
    c.regraded t = .var v ↔ t = .var v := by
  cases t <;> simp [regraded]

namespace Solve

variable {st : Solving}

theorem sat_mismatch {α : Type} {x y : Option α} {f : α → α → TypeErrorKind}
    {Q : Except TypeErrorKind Unit → Solving → Prop} (h : ∀ a b, Q (.error (f a b)) st) :
    Sat (mismatch x y f) st Q := by
  unfold mismatch
  split
  · exact sat_fail (h _ _)
  · exact sat_stuck

theorem sat_nameAlternatives {n : ℕ} {a b : Row} {r : Except TypeErrorKind Unit}
    {new : List Task} {c : Core} {P : Assumed} (h : Solves new c P r st) :
    Sat (nameAlternatives n a b r) st (Solves new c P) := by
  unfold nameAlternatives
  split
  · refine sat_bind (sat_unifier ?_)
    simp only [then_ok]
    split
    · exact sat_stuck
    · split
      · split
        · exact sat_stuck
        · exact sat_fail h
      · exact sat_fail h
  · exact sat_ofExcept h

theorem sat_unifyGrade {ga gb : Grade} {Q : Except TypeErrorKind Bool → Solving → Prop}
    (hok : ∀ st' : Solving, st'.pairs = st.pairs → st.u.core.unifyGrade ga gb = some st'.u.core →
      Q (.ok true) st')
    (hno : ∀ st' : Solving, st'.pairs = st.pairs → st.u.core.unifyGrade ga gb = none →
      st'.u.core = st.u.core → Q (.ok false) st') : Sat (unifyGrade ga gb) st Q := by
  refine sat_act (Run.sat_act ?_)
  rcases st.u.unifyGrade_spec ga gb with ⟨c, hc, ht, hcore⟩ | ⟨hc, ht, hcore⟩
  · rw [ht]
    exact hok _ rfl (by rw [hc, hcore])
  · rw [ht]
    exact hno _ rfl hc hcore

/-! ## The algorithm -/

/-- What a failed or refused pair of producers is for its equation. -/
def verdict : Except TypeErrorKind Bool → Except TypeErrorKind Unit
  | .ok true => .ok ()
  | .ok false => .error .recursiveRow
  | .error e => .error e

/-- Every function of the algorithm is a run of its equation. -/
structure Refined (n : ℕ) : Prop where
  ty : ∀ a b d (st : Solving) P, st.pairs.Within P →
    Sat (unifyTyInner n a b d) st (Solves [.eq a b] st.u.core P)
  comp : ∀ a b d (st : Solving) P, st.pairs.Within P →
    Sat (unifyCompTyInner n a b d) st (Solves [.eq a b] st.u.core P)
  row : ∀ a b d (st : Solving) P, st.pairs.Within P →
    Sat (unifyRowInner n a b d) st (Solves [.eq a b] st.u.core P)
  loop : ∀ a b aWeak bWeak d (st : Solving) P, st.pairs.Within P →
    Sat (unifyRowLoop n (st.u.core.resolve a) (st.u.core.resolve b) aWeak bWeak d) st
      (Solves [.eq a b] st.u.core P)
  producers : ∀ {s : Srt} {a b x y : Term s} {ga gb ga' gb' : Grade} {pa pb : Ty} d
    (st : Solving) P, st.u.core.resolve a = x → st.u.core.resolve b = y →
    Producers x y ga pa gb pb → st.u.core.resolveGrade ga' = st.u.core.resolveGrade ga →
    st.u.core.resolveGrade gb' = st.u.core.resolveGrade gb →
    st.pairs.Within (P.add (st.u.core.key a) (st.u.core.key b)) →
    Sat (unifyProducers n ga' pa gb' pb d) st fun r st' =>
      Solves [.eq a b] st.u.core P (verdict r) st'

variable {n : ℕ}

theorem sat_assuming {s : Srt} {P : Assumed} (a b : Term s) (d : ℕ) (hP : st.pairs.Within P)
    (body : Solve Unit)
    (h : ∀ st₁ : Solving, st₁.u.core = st.u.core →
      st₁.pairs.Within (P.add (st.u.core.key a) (st.u.core.key b)) →
      Sat body st₁ (Solves [.eq a b] st.u.core P)) :
    Sat (do if ← assumed a b d then pure () else body) st (Solves [.eq a b] st.u.core P) := by
  refine sat_bind ((sat_assumed a b d hP).mono fun r st₁ h₁ => ?_)
  cases r with
  | error e => exact Solves.fail e ((h₁ : st₁.u.core = st.u.core) ▸ .refl _)
  | ok hit =>
    cases hit with
    | false => exact h st₁ h₁.1 h₁.2
    | true =>
      refine sat_pure (.last (fun ts => ?_) h₁.2.1)
      rw [h₁.1]
      rcases h₁.2.2 with ⟨x, y, rfl, rfl, hr⟩ | hp
      · exact .same hr
      · exact .hit hp

theorem sat_binding {s : Srt} {v : ℕ} {weak : Option WeakSource} {x : Act Unit} {c : Core}
    {binds : Core → Prop} {t : Task} {P P' : Assumed} (hc : st.u.core = c)
    (hx : ∀ u : Unifier, u.core = c → Sat x u (Act.Binds c binds))
    (hs : ∀ c', binds c' → ∀ ts, Step ⟨t :: ts, c, P⟩ ⟨ts, c', P'⟩) (hP : st.pairs.Within P') :
    Sat (do
      act (Act.inheritWeak s v weak)
      act x) st (Solves [t] c P) := by
  refine sat_bind (sat_act (Act.sat_inheritWeak.mono fun r u₁ h₁ => ?_))
  obtain ⟨rfl, h₁⟩ := h₁
  refine sat_act ((hx u₁ (h₁.trans hc)).mono fun r u₂ h₂ => ?_)
  exact (Solves.bind h₂ hs hP : Solves [t] c P r ⟨u₂, st.pairs⟩)

/-- Two variables; they are one where a bare variable stands between. -/
theorem sat_unites {a b : Ty} {x y : TyVar} {P : Assumed} (ha : st.u.core.resolve a = .var x)
    (hb : st.u.core.resolve b = .var y)
    (hW : st.pairs.Within (P.add (st.u.core.key a) (st.u.core.key b))) :
    Sat (act (Act.uniteTys x y)) st (Solves [.eq a b] st.u.core P) := by
  obtain ⟨hx, -⟩ := st.u.core.free_of_resolve ha
  obtain ⟨hy, -⟩ := st.u.core.free_of_resolve hb
  by_cases hxy : x = y
  · subst hxy
    refine sat_act (Act.sat_uniteTys_self.mono fun r u' h => ?_)
    obtain ⟨rfl, h⟩ := h
    refine .last (fun ts => ?_) hW
    rw [h]
    exact .aliased ha hb
  refine sat_act ((Act.sat_uniteTys hx.root hy.root hxy).mono fun r u' h => ?_)
  cases r with
  | ok _ =>
    obtain ⟨k, hk, hcore⟩ := Option.map_eq_some_iff.mp h
    refine .last (fun ts => ?_) hW
    rw [← hcore]
    exact .uniteTy ha hb hxy hk
  | error e => exact .fail e ((h : u'.core = st.u.core) ▸ .refl _)

theorem Refined.ty_succ (ih : Refined n) (a b : Ty) (d : ℕ) (P : Assumed)
    (hP : st.pairs.Within P) :
    Sat (unifyTyInner (n + 1) a b d) st (Solves [.eq a b] st.u.core P) := by
  rw [unifyTyInner]
  refine sat_assuming a b d hP _ fun st₁ hc hW => sat_bind (sat_unifier ?_)
  rw [← hc] at hW ⊢
  simp only [then_ok, Unifier.core_resolve]
  clear hP hc
  cases hva : view (st₁.u.core.resolve a) with
  | inl x =>
    have ha := view_eq_inl.mp hva
    obtain ⟨hx, v, rfl, hvx⟩ := st₁.u.core.free_of_resolve ha
    cases hvb : view (st₁.u.core.resolve b) with
    | inl y => exact sat_unites ha (view_eq_inl.mp hvb) hW
    | inr val =>
      have hs : st₁.u.core.Sides (.var v) b x val := Or.inl ⟨ha, view_eq_inr.mp hvb⟩
      exact sat_binding rfl (fun u hu => hu ▸ Act.sat_bindTy (hu ▸ hx))
        (fun c' hb ts => .bindTy hs hb) hW
  | inr x =>
    have ha := view_eq_inr.mp hva
    cases hvb : view (st₁.u.core.resolve b) with
    | inl y =>
      have hb := view_eq_inl.mp hvb
      obtain ⟨hy, -⟩ := st₁.u.core.free_of_resolve hb
      have hs : st₁.u.core.Sides a b y x := Or.inr ⟨hb, ha⟩
      exact sat_binding rfl (fun u hu => hu ▸ Act.sat_bindTy (hu ▸ hy))
        (fun c' hb ts => .bindTy hs hb) hW
    | inr y =>
      have hb := view_eq_inr.mp hvb
      refine sat_bind (sat_deeper ?_ (.fail .typeTooDeep (.refl _)))
      obtain ⟨x, hxh⟩ := x
      obtain ⟨y, hyh⟩ := y
      cases x with
      | var v => simp [Unifiable.asVar] at hxh
      | unit =>
        cases y with
        | unit => exact sat_pure (.last (fun ts => .split ha hb .unit) hW)
        | _ => exact sat_fail (.fail _ (.refl _))
      | bytes =>
        cases y with
        | bytes => exact sat_pure (.last (fun ts => .split ha hb .bytes) hW)
        | _ => exact sat_fail (.fail _ (.refl _))
      | bool =>
        cases y with
        | bool => exact sat_pure (.last (fun ts => .split ha hb .bool) hW)
        | _ => exact sat_fail (.fail _ (.refl _))
      | int =>
        cases y with
        | int => exact sat_pure (.last (fun ts => .split ha hb .int) hW)
        | _ => exact sat_fail (.fail _ (.refl _))
      | float =>
        cases y with
        | float => exact sat_pure (.last (fun ts => .split ha hb .float) hW)
        | _ => exact sat_fail (.fail _ (.refl _))
      | string =>
        cases y with
        | string => exact sat_pure (.last (fun ts => .split ha hb .string) hW)
        | _ => exact sat_fail (.fail _ (.refl _))
      | list a₁ =>
        cases y with
        | list b₁ =>
          exact (ih.ty a₁ b₁ _ st₁ _ hW).mono fun r st₂ h =>
            h.step fun ts => .split ha hb .list
        | _ => exact sat_fail (.fail _ (.refl _))
      | map a₁ =>
        cases y with
        | map b₁ =>
          exact (ih.ty a₁ b₁ _ st₁ _ hW).mono fun r st₂ h =>
            h.step fun ts => .split ha hb .map
        | _ => exact sat_fail (.fail _ (.refl _))
      | record r₁ =>
        cases y with
        | record r₂ =>
          refine sat_bind (sat_attempt ((ih.row r₁ r₂ _ st₁ _ hW).mono fun r st₂ h => ?_))
          exact sat_nameAlternatives (h.step fun ts => .split ha hb .record)
        | _ => exact sat_fail (.fail _ (.refl _))
      | variant r₁ =>
        cases y with
        | variant r₂ =>
          refine sat_bind (sat_attempt ((ih.row r₁ r₂ _ st₁ _ hW).mono fun r st₂ h => ?_))
          exact sat_nameAlternatives (h.step fun ts => .split ha hb .variant)
        | _ => exact sat_fail (.fail _ (.refl _))
      | thunk a₁ =>
        cases y with
        | thunk b₁ =>
          exact (ih.comp a₁ b₁ _ st₁ _ hW).mono fun r st₂ h =>
            h.step fun ts => .split ha hb .thunk
        | _ => exact sat_fail (.fail _ (.refl _))
      | handle ga pa =>
        cases y with
        | handle gb pb =>
          refine sat_bind ((ih.producers (d + 1) st₁ P ha hb .handle rfl rfl hW).mono
            fun r st₂ h => ?_)
          cases r with
          | error e => exact h
          | ok agreed =>
            cases agreed with
            | true => exact sat_pure h
            | false =>
              refine sat_bind (sat_unifier (sat_mismatch fun _ _ => ?_))
              exact h
        | _ => exact sat_fail (.fail _ (.refl _))

theorem view_resolveCompTy (u : Unifier) (t : CompTy) :
    (∃ v, view (u.resolveCompTy t) = .inl v ∧ u.core.resolve t = .var v) ∨
      ∃ val : Struct CompTy, view (u.resolveCompTy t) = .inr (u.core.regrade val) ∧
        u.core.resolve t = val.val := by
  rw [u.resolveCompTy_eq]
  cases hv : view (u.core.resolve t) with
  | inl v =>
    have ht := view_eq_inl.mp hv
    refine Or.inl ⟨v, view_eq_inl.mpr ?_, ht⟩
    exact Core.regraded_eq_var.mpr ht
  | inr val =>
    have ht := view_eq_inr.mp hv
    exact Or.inr ⟨val, view_eq_inr.mpr (by rw [ht]; rfl), ht⟩

theorem Refined.comp_succ (ih : Refined n) (a b : CompTy) (d : ℕ) (P : Assumed)
    (hP : st.pairs.Within P) :
    Sat (unifyCompTyInner (n + 1) a b d) st (Solves [.eq a b] st.u.core P) := by
  rw [unifyCompTyInner]
  refine sat_assuming a b d hP _ fun st₁ hc hW => sat_bind (sat_unifier ?_)
  rw [← hc] at hW ⊢
  simp only [then_ok]
  clear hP hc
  rcases view_resolveCompTy st₁.u a with ⟨x, hva, ha⟩ | ⟨x, hva, ha⟩
  · rcases view_resolveCompTy st₁.u b with ⟨y, hvb, hb⟩ | ⟨y, hvb, hb⟩
    · simp only [hva, hvb]
      have hx := (st₁.u.core.free_of_resolve ha).1
      have hy := (st₁.u.core.free_of_resolve hb).1
      refine sat_act (sat_modify (.last (fun ts => ?_) hW))
      rw [Unifier.core_uniteTerms _ hx.root hy.root]
      exact .uniteComp ha hb
    · simp only [hva, hvb]
      obtain ⟨hx, -⟩ := st₁.u.core.free_of_resolve ha
      have hs : st₁.u.core.Sides a b x y := Or.inl ⟨ha, hb⟩
      exact sat_binding rfl (fun u hu => hu ▸ Act.sat_bindCompTy (hu ▸ hx))
        (fun c' hb ts => .bindComp hs hb) hW
  · rcases view_resolveCompTy st₁.u b with ⟨y, hvb, hb⟩ | ⟨y, hvb, hb⟩
    · simp only [hva, hvb]
      obtain ⟨hy, -⟩ := st₁.u.core.free_of_resolve hb
      have hs : st₁.u.core.Sides a b y x := Or.inr ⟨hb, ha⟩
      exact sat_binding rfl (fun u hu => hu ▸ Act.sat_bindCompTy (hu ▸ hy))
        (fun c' hb ts => .bindComp hs hb) hW
    · simp only [hva, hvb]
      refine sat_bind (sat_deeper ?_ (.fail .typeTooDeep (.refl _)))
      obtain ⟨x, hxh⟩ := x
      obtain ⟨y, hyh⟩ := y
      cases x with
      | var v => simp [Unifiable.asVar] at hxh
      | ret ga pa =>
        cases y with
        | ret gb pb =>
          refine sat_bind (sat_attempt ?_)
          refine (ih.producers (d + 1) st₁ P ha hb .ret
            (Core.resolveGrade_resolveGrade _ ga) (Core.resolveGrade_resolveGrade _ gb) hW).mono
            fun r st₂ h => ?_
          cases r with
          | ok agreed =>
            cases agreed with
            | true => exact sat_pure h
            | false =>
              refine sat_bind (sat_unifier (sat_mismatch fun _ _ => ?_))
              exact h
          | error e =>
            cases e with
            | typeTooDeep | cyclicType _ | kindMismatch _ _ _ => exact sat_fail h
            | _ =>
              refine sat_bind (sat_unifier (sat_mismatch fun _ _ => ?_))
              exact h
        | _ => exact sat_fail (.fail _ (.refl _))
      | func a₁ b₁ =>
        cases y with
        | func a₂ b₂ =>
          refine sat_bind ((ih.ty a₁ a₂ (d + 1) st₁ _ hW).mono fun r st₂ h => ?_)
          cases r with
          | error e => exact (h.error_append [.eq b₁ b₂]).step fun ts => .split ha hb .func
          | ok _ =>
            obtain ⟨P', hW', hs⟩ := h
            refine (ih.comp b₁ b₂ (d + 1) st₂ P' hW').mono fun r st₃ h' => ?_
            exact (Solves.andThen hs h').step fun ts => .split ha hb .func
        | _ => exact sat_fail (.fail _ (.refl _))

theorem Refined.row_succ (ih : Refined n) (a b : Row) (d : ℕ) (P : Assumed)
    (hP : st.pairs.Within P) :
    Sat (unifyRowInner (n + 1) a b d) st (Solves [.eq a b] st.u.core P) := by
  rw [unifyRowInner]
  refine sat_bind (sat_unifier ?_)
  simp only [then_ok, Unifier.core_resolve]
  exact ih.loop a b _ _ d st P hP

/-- Two spines that start with different labels of one alphabet. -/
theorem Refined.rewrite (ih : Refined n) {a b r r' : Row} {l l' : Label} {t t' : Ty} (d : ℕ)
    (P : Assumed) (hP : st.pairs.Within P) (ha : st.u.core.resolve a = .extend l t r)
    (hb : st.u.core.resolve b = .extend l' t' r') (hl : l ≠ l') (halpha : l.isField = l'.isField) :
    Sat (do
      let u ← unifier
      match u.rowSpine n r, u.rowSpine n r' with
      | some (left, leftTail), some (right, rightTail) =>
        if Unifier.clashOnTail (l :: left, leftTail) (l' :: right, rightTail) then
          Run.fail .recursiveRow
        else
          let rho ← act (Run.act fun u => u.fresh .row)
          unifyRowInner n r (.extend l' t' (.var rho)) d
          unifyRowInner n (.extend l t (.var rho)) r' d
      | _, _ => Run.stuck) st (Solves [.eq a b] st.u.core P) := by
  refine sat_bind (sat_unifier ?_)
  simp only [then_ok]
  split
  · next left lt right rt hleft hright =>
      have hsl := st.u.rowSpine_spec hleft
      have hsr := st.u.rowSpine_spec hright
      by_cases hclash : Unifier.clashOnTail (l :: left, lt) (l' :: right, rt) = true
      · rw [if_pos hclash]
        exact sat_fail (.fail _ (.refl _))
      · rw [if_neg hclash]
        have htail : lt = rt → lt ≠ none → (l :: left).Perm (l' :: right) := by
          intro he hn
          by_contra hp
          obtain ⟨v, rfl⟩ := Option.ne_none_iff_exists'.mp hn
          exact hclash (he ▸ Unifier.clashOnTail_of_not_perm hp)
        refine sat_bind (sat_act (Run.sat_act ?_))
        simp only [then_ok]
        have hnext : (st.u.fresh .row).1 = (st.u.core.cls .row).next := rfl
        rw [hnext]
        have hcore : (st.u.fresh .row).2.core = st.u.core.fresh .row := st.u.core_fresh .row
        refine sat_bind ((ih.row r (.extend l' t' (.var (st.u.core.cls .row).next)) d
          ⟨(st.u.fresh .row).2, st.pairs⟩ P hP).mono fun res st₂ h => ?_)
        simp only [hcore] at h
        have hstep : ∀ ts, Step ⟨.eq a b :: ts, st.u.core, P⟩
            ⟨([.eq r (.extend l' t' (.var (st.u.core.cls .row).next))] ++
              [.eq (.extend l t (.var (st.u.core.cls .row).next)) r']) ++ ts,
              st.u.core.fresh .row, P⟩ :=
          fun ts => .rowRewrite ha hb hl halpha hsl hsr htail
        cases res with
        | error e => exact (h.error_append _).step hstep
        | ok _ =>
          obtain ⟨P', hW', hs⟩ := h
          refine (ih.row _ r' d st₂ P' hW').mono fun res st₃ h' => ?_
          exact (Solves.andThen hs h').step hstep
  · exact sat_stuck

theorem Refined.loop_succ (ih : Refined n) (a b : Row) (aWeak bWeak : Option WeakSource) (d : ℕ)
    (P : Assumed) (hP : st.pairs.Within P) :
    Sat (unifyRowLoop (n + 1) (st.u.core.resolve a) (st.u.core.resolve b) aWeak bWeak d) st
      (Solves [.eq a b] st.u.core P) := by
  rw [unifyRowLoop]
  cases hva : view (st.u.core.resolve a) with
  | inl x =>
    have ha := view_eq_inl.mp hva
    obtain ⟨hx, -⟩ := st.u.core.free_of_resolve ha
    cases hvb : view (st.u.core.resolve b) with
    | inl y =>
      have hy := (st.u.core.free_of_resolve (view_eq_inl.mp hvb)).1
      refine sat_act (sat_modify (.last (fun ts => ?_) hP))
      rw [Unifier.core_uniteRows _ hx.root hy.root]
      exact .uniteRow ha (view_eq_inl.mp hvb)
    | inr val =>
      have hs : st.u.core.Sides a b x val := Or.inl ⟨ha, view_eq_inr.mp hvb⟩
      refine sat_act ((Act.sat_bindRow hx).mono fun r u' h => ?_)
      exact (Solves.bind h (fun c' hb ts => .bindRow hs hb) hP :
        Solves [.eq a b] st.u.core P r ⟨u', st.pairs⟩)
  | inr x =>
    have ha := view_eq_inr.mp hva
    cases hvb : view (st.u.core.resolve b) with
    | inl y =>
      have hb := view_eq_inl.mp hvb
      obtain ⟨hy, -⟩ := st.u.core.free_of_resolve hb
      have hs : st.u.core.Sides a b y x := Or.inr ⟨hb, ha⟩
      refine sat_act ((Act.sat_bindRow hy).mono fun r u' h => ?_)
      exact (Solves.bind h (fun c' hb ts => .bindRow hs hb) hP :
        Solves [.eq a b] st.u.core P r ⟨u', st.pairs⟩)
    | inr y =>
      have hb := view_eq_inr.mp hvb
      obtain ⟨x, hxh⟩ := x
      obtain ⟨y, hyh⟩ := y
      cases x with
      | var v => simp [Unifiable.asVar] at hxh
      | empty =>
        cases y with
        | var v => simp [Unifiable.asVar] at hyh
        | empty => exact sat_pure (.last (fun ts => .rowEmpty ha hb) hP)
        | extend l t r => exact sat_fail (.fail _ (.refl _))
      | extend l t r =>
        cases y with
        | var v => simp [Unifiable.asVar] at hyh
        | empty => exact sat_fail (.fail _ (.refl _))
        | extend l' t' r' =>
          by_cases hl : l = l'
          · subst hl
            simp only [if_true]
            refine sat_bind (sat_deeper (sat_bind ?_)
              (.fail .typeTooDeep (.refl _)))
            refine (ih.ty t t' (d + 1) st P hP).mono fun res st₂ h => ?_
            cases res with
            | error e =>
              exact (h.error_append [.eq r r']).step fun ts => .rowLabel ha hb
            | ok _ =>
              obtain ⟨P', hW', hs⟩ := h
              refine sat_bind (sat_unifier ?_)
              simp only [then_ok, Unifier.core_resolve]
              refine (ih.loop r r' none none d st₂ P' hW').mono fun res st₃ h' => ?_
              exact (Solves.andThen hs h').step fun ts => .rowLabel ha hb
          · simp only [if_neg hl]
            by_cases halpha : l.isField = l'.isField
            · simp only [halpha, ne_eq, not_true_eq_false, if_false]
              exact ih.rewrite d P hP ha hb hl halpha
            · simp only [ne_eq, halpha, not_false_eq_true, if_true]
              exact sat_fail (.fail _ (.refl _))

theorem Refined.producers_succ (ih : Refined n) {s : Srt} {a b x y : Term s}
    {ga gb ga' gb' : Grade} {pa pb : Ty} (d : ℕ) (P : Assumed) (ha : st.u.core.resolve a = x)
    (hb : st.u.core.resolve b = y) (hp : Producers x y ga pa gb pb)
    (hga : st.u.core.resolveGrade ga' = st.u.core.resolveGrade ga)
    (hgb : st.u.core.resolveGrade gb' = st.u.core.resolveGrade gb)
    (hW : st.pairs.Within (P.add (st.u.core.key a) (st.u.core.key b))) :
    Sat (unifyProducers (n + 1) ga' pa gb' pb d) st fun r st' =>
      Solves [.eq a b] st.u.core P (verdict r) st' := by
  rw [unifyProducers]
  refine sat_bind (sat_unifier ?_)
  simp only [then_ok, Unifier.core_resolve, Unifier.core_resolveGrade, hga, hgb,
    Unifier.admitsUnit_eq]
  split
  · next hrej => exact sat_pure (.fail _ (.refl _))
  · next hrej =>
      split
      · next hfirst =>
          have hstep : ∀ ts, Step ⟨.eq a b :: ts, st.u.core, P⟩
              ⟨([.eq pa pb] ++ [.grade (st.u.core.resolveGrade ga) pa (st.u.core.resolveGrade gb) pb])
                ++ ts, st.u.core, P.add (st.u.core.key a) (st.u.core.key b)⟩ :=
            fun ts => .payloadFirst ha hb hp hrej hfirst
          refine sat_bind ((ih.ty pa pb d st _ hW).mono fun r st₂ h => ?_)
          cases r with
          | error e => exact (h.error_append _).step hstep
          | ok _ =>
            obtain ⟨P', hW', hs⟩ := h
            refine sat_unifyGrade (fun st₃ hpairs hg => ?_) fun st₃ hpairs hg hcore => ?_
            · refine (Solves.andThen hs (Solves.last (fun ts => .grade hg) ?_)).step hstep
              exact hpairs ▸ hW'
            · refine (Solves.andThen hs (Solves.fail _ ?_)).step hstep
              exact hcore ▸ .refl _
      · next hfirst =>
          have hstep : ∀ ts, Step ⟨.eq a b :: ts, st.u.core, P⟩
              ⟨([.grade (st.u.core.resolveGrade ga) pa (st.u.core.resolveGrade gb) pb] ++ [.eq pa pb])
                ++ ts, st.u.core, P.add (st.u.core.key a) (st.u.core.key b)⟩ :=
            fun ts => .gradeFirst ha hb hp hrej hfirst
          refine sat_bind (sat_unifyGrade (fun st₂ hpairs hg => ?_) fun st₂ hpairs hg hcore => ?_)
          · simp only [then_ok, if_true]
            have hs : ∀ ts, Steps ⟨[.grade (st.u.core.resolveGrade ga) pa
                (st.u.core.resolveGrade gb) pb] ++ ts, st.u.core,
                P.add (st.u.core.key a) (st.u.core.key b)⟩
                ⟨ts, st₂.u.core, P.add (st.u.core.key a) (st.u.core.key b)⟩ :=
              fun ts => .single (.grade hg)
            refine sat_bind ((ih.ty pa pb d st₂ _ (hpairs ▸ hW)).mono fun r st₃ h => ?_)
            have h' := (Solves.andThen hs h).step hstep
            cases r with
            | error e => exact h'
            | ok _ => exact sat_pure h'
          · refine sat_pure ((Solves.fail _ ?_).step hstep)
            exact hcore ▸ .refl _

theorem refined (n : ℕ) : Refined n := by
  induction n with
  | zero =>
    refine ⟨fun _ _ _ _ _ _ => ?_, fun _ _ _ _ _ _ => ?_, fun _ _ _ _ _ _ => ?_,
      fun _ _ _ _ _ _ _ _ => ?_, fun _ _ _ _ _ _ _ _ _ => ?_⟩
    · rw [unifyTyInner]
      exact sat_stuck
    · rw [unifyCompTyInner]
      exact sat_stuck
    · rw [unifyRowInner]
      exact sat_stuck
    · rw [unifyRowLoop]
      exact sat_stuck
    · rw [unifyProducers]
      exact sat_stuck
  | succ n ih =>
    exact ⟨fun a b d _ P hP => ih.ty_succ a b d P hP, fun a b d _ P hP => ih.comp_succ a b d P hP,
      fun a b d _ P hP => ih.row_succ a b d P hP,
      fun a b aWeak bWeak d _ P hP => ih.loop_succ a b aWeak bWeak d P hP,
      fun d _ P ha hb hp hga hgb hW => ih.producers_succ d P ha hb hp hga hgb hW⟩

end Solve

/-! ## Entry points -/

/-- A unification of `a` and `b` from `u`. -/
inductive Unified : {s : Srt} → Term s → Term s → Unifier → Except TypeErrorKind Unit → Unifier → Prop
  | ty {n : ℕ} {a b : Ty} {u u' : Unifier} {r : Except TypeErrorKind Unit}
      (h : Unifier.unifyTy n a b u = some (r, u')) : Unified a b u r u'
  | comp {n : ℕ} {a b : CompTy} {u u' : Unifier} {r : Except TypeErrorKind Unit}
      (h : Unifier.unifyCompTy n a b u = some (r, u')) : Unified a b u r u'
  | row {n : ℕ} {a b : Row} {u u' : Unifier} {r : Except TypeErrorKind Unit}
      (h : Unifier.unifyRow n a b u = some (r, u')) : Unified a b u r u'

theorem solved_eq {x : Solve Unit} {u u' : Unifier} {r : Except TypeErrorKind Unit}
    {Q : Except TypeErrorKind Unit → Solving → Prop} (h : Unifier.solved x u = some (r, u'))
    (hx : Sat x ⟨u, Pairs.new⟩ Q) : ∃ p, Q r ⟨u', p⟩ := by
  obtain ⟨⟨r', st⟩, hst, he⟩ := Option.map_eq_some_iff.mp h
  cases he
  exact ⟨st.pairs, hx _ _ hst⟩

theorem Unified.run {s : Srt} {a b : Term s} {u u' : Unifier} {r : Except TypeErrorKind Unit}
    (h : Unified a b u r u') : ∃ p, Solves [.eq a b] u.core .none r ⟨u', p⟩ := by
  cases h with
  | ty h => exact solved_eq h ((Solve.refined _).ty _ _ 0 ⟨u, .new⟩ .none (Pairs.within_new _))
  | comp h => exact solved_eq h ((Solve.refined _).comp _ _ 0 ⟨u, .new⟩ .none (Pairs.within_new _))
  | row h =>
    refine solved_eq h (sat_bind (sat_attempt ?_))
    refine ((Solve.refined _).row _ _ 0 ⟨u, .new⟩ .none (Pairs.within_new _)).mono fun r st h => ?_
    exact Solve.sat_nameAlternatives h

theorem Unified.steps {s : Srt} {a b : Term s} {u u' : Unifier} (h : Unified a b u (.ok ()) u') :
    ∃ P, Steps ⟨[.eq a b], u.core, .none⟩ ⟨[], u'.core, P⟩ := by
  obtain ⟨p, P, -, hs⟩ := h.run
  exact ⟨P, hs []⟩

theorem Unified.fails {s : Srt} {a b : Term s} {u u' : Unifier} {e : TypeErrorKind}
    (h : Unified a b u (.error e) u') : ∃ ts c P, Steps ⟨[.eq a b], u.core, .none⟩ ⟨ts, c, P⟩ ∧
      c.Aborts u'.core := by
  obtain ⟨p, rest, c, P, hs, ha⟩ := h.run
  exact ⟨rest ++ [], c, P, hs [], ha⟩

end Ral.Typecheck
