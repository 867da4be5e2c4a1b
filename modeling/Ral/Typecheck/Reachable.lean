import Mathlib.Data.List.Chain
import Ral.Core.Acyclic
import Ral.Typecheck.Refine

/-! # Cycles cross data

In a store two graphs have no infinite path: the one that expands no type or
computation variable, and, as long as no binding overlooked the way back to its own
variable, the one that crosses no data constructor. Every update of the unifier
keeps both; by the first every walk that marks the variables it expands ends.
-/

namespace Ral.Typecheck
open Relation Ral.Acyclic Ral.UnionFind

namespace Core

/-- A node that is no type or computation variable. -/
def rowNode (x : Node) : Prop := x.1 = .row ∨ x.2.asVar = none

/-- No root of a row stands for another. -/
def Plain (c : Core) : Prop := ∀ v, c.anchor .row v = c.root .row v

/-- Every cycle is rooted at a type or computation variable and, where nothing was
overlooked, crosses data. -/
structure Acyclic (c : Core) : Prop where
  flow : ¬ c.overlooked → Grounded (c.Edge flowNode)
  row : Grounded (c.Edge rowNode)
  plain : c.Plain

variable {c c' : Core}

/-! ## Updates -/

/-- Every binding of `c'` is one of `c`, or that of the class of `r` to `b`. -/
def Grows (c c' : Core) (s : Srt) (r : ℕ) (b : Struct (Term s)) : Prop :=
  ∀ s' v b', c'.get s' v = some b' → c.get s' v = some b' ∨
    c.AtRoot s r ⟨s', .var v⟩ ∧ (⟨s', b'.val⟩ : Node) = ⟨s, b.val⟩

theorem Grows.succ {s : Srt} {r : ℕ} {b : Struct (Term s)} (h : c.Grows c' s r b) {x y : Node}
    (hxy : c'.Succ x y) : c.Succ x y ∨ c.AtRoot s r x ∧ y = ⟨s, b.val⟩ := by
  cases hxy with
  | bound hb =>
    rcases h _ _ _ hb with hb | ⟨hat, he⟩
    · exact Or.inl (.bound hb)
    · exact Or.inr ⟨hat, he⟩
  | child hc => exact Or.inl (.child hc)

theorem Grows.edge {s : Srt} {r : ℕ} {b : Struct (Term s)} (h : c.Grows c' s r b)
    {p : Node → Prop} {x y : Node} (hxy : c'.Edge p x y) :
    c.Edge p x y ∨ c.AtRoot s r x ∧ y = ⟨s, b.val⟩ :=
  (h.succ hxy.2).imp_left fun hs => ⟨hxy.1, hs⟩

theorem Plain.of_alike (h : c.Plain) (ha : c.Alike c') : c'.Plain := by
  intro v
  rw [ha.anchor, ha.root, h]

theorem Acyclic.mono (h : c.Acyclic) (hget : ∀ s v b, c'.get s v = some b → c.get s v = some b)
    (ho : c.overlooked → c'.overlooked) (hplain : c'.Plain) : c'.Acyclic := by
  have hsucc : ∀ x y, c'.Succ x y → c.Succ x y := by
    intro x y hxy
    cases hxy with
    | bound hb => exact .bound (hget _ _ _ hb)
    | child hc => exact .child hc
  exact ⟨fun hn => (h.flow fun hc => hn (ho hc)).mono fun x y hxy => ⟨hxy.1, hsucc x y hxy.2⟩,
    h.row.mono fun x y hxy => ⟨hxy.1, hsucc x y hxy.2⟩, hplain⟩

theorem Acyclic.of_alike (h : c.Acyclic) (ha : c.Alike c')
    (hget : ∀ s v b, c'.get s v = some b → c.get s v = some b) : c'.Acyclic :=
  h.mono hget (fun ho => ha.overlooked ▸ ho) (h.plain.of_alike ha)

/-- A binding that, unless overlooked, reaches its own variable neither without
crossing data nor, for a row, without crossing a type or computation variable. -/
theorem Acyclic.grow (h : c.Acyclic) {s : Srt} {r : ℕ} {b : Struct (Term s)}
    (hg : c.Grows c' s r b) (ho : c.overlooked → c'.overlooked)
    (hplain : c'.Plain)
    (hflow : ¬ c'.overlooked → ¬ c.Meets flowNode (c.AtRoot s r) ⟨s, b.val⟩)
    (hrow : s = .row → ¬ c.Meets rowNode (c.AtRoot s r) ⟨s, b.val⟩) : c'.Acyclic := by
  refine ⟨fun hn => ?_, ?_, hplain⟩
  · refine (h.flow fun hc => hn (ho hc)).insert (S := c.AtRoot s r) (b := ⟨s, b.val⟩)
      (fun x y hxy => hg.edge hxy) ?_
    exact fun y hy hat => hflow hn ⟨y, hy, hat⟩
  · by_cases hs : s = .row
    · refine h.row.insert (S := c.AtRoot s r) (b := ⟨s, b.val⟩) (fun x y hxy => hg.edge hxy) ?_
      exact fun y hy hat => hrow hs ⟨y, hy, hat⟩
    · refine h.row.mono fun x y hxy => ?_
      rcases hg.edge hxy with he | ⟨⟨v, rfl, -⟩, -⟩
      · exact he
      · rcases hxy.1 with hx | hx
        · exact (hs hx).elim
        · simp at hx

/-- The same where the partitions stay. -/
theorem Acyclic.grow_alike (h : c.Acyclic) {s : Srt} {r : ℕ} {b : Struct (Term s)}
    (hg : c.Grows c' s r b) (ha : c.Alike c')
    (hflow : ¬ c.Meets flowNode (c.AtRoot s r) ⟨s, b.val⟩)
    (hrow : s = .row → ¬ c.Meets rowNode (c.AtRoot s r) ⟨s, b.val⟩) : c'.Acyclic :=
  h.grow hg (fun ho => ha.overlooked ▸ ho) (h.plain.of_alike ha) (fun _ => hflow) hrow

theorem grows_bind (s : Srt) (r : ℕ) (b : Struct (Term s)) :
    c.Grows (c.bind s r b) s (c.root s r) b := by
  intro s' v b' hb'
  by_cases hs : s' = s
  · subst hs
    rw [get_bind] at hb'
    split at hb'
    · next hr =>
        cases hb'
        exact Or.inr ⟨atRoot_var.mpr ⟨rfl, hr⟩, rfl⟩
    · exact Or.inl hb'
  · rw [get_bind_ne hs] at hb'
    exact Or.inl hb'

/-! ## Leaves -/

theorem nullary_leaf {h : Head} {t : Ty} (ht : h.nullary = some t) : t.children = [] := by
  cases h <;> simp only [Head.nullary, Option.some.injEq, reduceCtorEq] at ht <;> subst ht <;> rfl

theorem no_succ_leaf {s : Srt} {b : Struct (Term s)} (hb : b.val.children = []) (y : Node) :
    ¬ c.Succ ⟨s, b.val⟩ y := by
  intro hy
  have hmem := (succ_struct b.headed).mp hy
  rw [hb] at hmem
  cases hmem

theorem grows_narrow {v : TyVar} {k : Kind} (h : c.narrow v k = some c') :
    (∀ s w, c'.get s w = c.get s w) ∨
      ∃ b : Struct Ty, b.val.children = [] ∧ c.Grows c' .ty (c.root .ty v) b := by
  unfold narrow at h
  obtain ⟨m, -, he⟩ := Option.map_eq_some_iff.mp h
  subst he
  split
  · exact Or.inl fun _ _ => rfl
  · cases hp : m.pin with
    | none => exact Or.inl fun s w => by simp [install_open _ _ _ hp]
    | some t =>
      obtain ⟨hd, -, hn⟩ := Kind.pin_eq_some.mp hp
      refine Or.inr ⟨⟨t, Kind.pin_ne_var hp⟩, nullary_leaf hn, ?_⟩
      rw [install_pinned _ _ hp]
      have hg := grows_bind (c := c.setKind (c.root .ty v) .any) .ty (c.root .ty v)
        ⟨t, Kind.pin_ne_var hp⟩
      rwa [root_setKind, root_root] at hg

theorem Acyclic.narrow {v : TyVar} {k : Kind} (h : c.Acyclic) (hn : c.narrow v k = some c') :
    c'.Acyclic := by
  rcases grows_narrow hn with hget | ⟨b, hb, hg⟩
  · exact h.of_alike (alike_narrow hn) fun s w b hb => by rwa [hget] at hb
  · refine h.grow_alike hg (alike_narrow hn) ?_ (fun hs => by cases hs)
    rintro ⟨y, hy, hat⟩
    rcases ReflTransGen.cases_head hy with rfl | ⟨z, hz, -⟩
    · exact not_atRoot_struct b.headed hat
    · exact no_succ_leaf hb z hz.2

theorem Acyclic.imposeTys {vs : List TyVar} (h : c.Acyclic) (hi : c.imposeTys vs = some c') :
    c'.Acyclic := by
  induction vs generalizing c with
  | nil =>
    cases hi
    exact h
  | cons v vs ih =>
    obtain ⟨c₁, h₁, h₂⟩ := Option.bind_eq_some_iff.mp hi
    exact ih (h.narrow h₁) h₂

theorem meets_narrow {v : TyVar} {k : Kind} (hn : c.narrow v k = some c') {p : Node → Prop}
    {s : Srt} {r : ℕ} {x : Node} (h : c'.Meets p (c'.AtRoot s r) x) : c.Meets p (c.AtRoot s r) x := by
  obtain ⟨y, hy, w, rfl, hw⟩ := h
  rw [(alike_narrow hn).root] at hw
  refine ⟨⟨s, .var w⟩, ?_, w, rfl, hw⟩
  rcases grows_narrow hn with hget | ⟨b, hb, hg⟩
  · refine ReflTransGen.mono (fun z z' hz => ⟨hz.1, ?_⟩) _ _ hy
    cases hz.2 with
    | bound hb => exact .bound ((hget _ _).symm.trans hb)
    | child hc => exact .child hc
  · have hnew : ∀ z z', c'.Edge p z z' →
        c.Edge p z z' ∨ c.AtRoot .ty (c.root .ty v) z ∧ z' = ⟨.ty, b.val⟩ := fun z z' hz => hg.edge hz
    rcases reaches_of_leaf hnew (fun z hz => no_succ_leaf hb z hz.2) hy with hy | hy
    · exact hy
    · have hs := congrArg Sigma.fst hy
      simp only at hs
      subst hs
      have hh := b.headed
      rw [← eq_of_heq (Sigma.mk.inj hy).2] at hh
      simp [Unifiable.asVar] at hh

theorem meets_imposeTys {vs : List TyVar} (hi : c.imposeTys vs = some c') {p : Node → Prop}
    {s : Srt} {r : ℕ} {x : Node} (h : c'.Meets p (c'.AtRoot s r) x) : c.Meets p (c.AtRoot s r) x := by
  induction vs generalizing c with
  | nil =>
    cases hi
    exact h
  | cons v vs ih =>
    obtain ⟨c₁, h₁, h₂⟩ := Option.bind_eq_some_iff.mp hi
    exact meets_narrow h₁ (ih h₂)

theorem meets_of_get {p : Node → Prop} {s : Srt} {r : ℕ} {x : Node}
    (hroot : ∀ s v, c'.root s v = c.root s v) (hget : ∀ s v, c'.get s v = c.get s v)
    (h : c'.Meets p (c'.AtRoot s r) x) : c.Meets p (c.AtRoot s r) x := by
  obtain ⟨y, hy, w, rfl, hw⟩ := h
  rw [hroot] at hw
  refine ⟨⟨s, .var w⟩, ReflTransGen.mono (fun z z' hz => ⟨hz.1, ?_⟩) _ _ hy, w, rfl, hw⟩
  cases hz.2 with
  | bound hb => exact .bound ((hget _ _).symm.trans hb)
  | child hc => exact .child hc

theorem meets_setKind {x : TyVar} {k : OpenKind} {p : Node → Prop} {s : Srt} {r : ℕ} {y : Node}
    (h : (c.setKind x k).Meets p ((c.setKind x k).AtRoot s r) y) : c.Meets p (c.AtRoot s r) y := by
  refine meets_of_get ?_ ?_ h
  · exact (alike_setKind x k).root
  · exact get_setKind x k

theorem Imposes.acyclic (h : c.Imposes c') (hc : c.Acyclic) : c'.Acyclic := by
  obtain ⟨owed, c₁, -, htys, rfl⟩ := h
  exact (hc.imposeTys htys).of_alike (alike_imposeRows _) fun s v b hb => by rwa [get_imposeRows] at hb

theorem Imposes.meets (h : c.Imposes c') {p : Node → Prop} {s : Srt} {r : ℕ} {x : Node}
    (hm : c'.Meets p (c'.AtRoot s r) x) : c.Meets p (c.AtRoot s r) x := by
  obtain ⟨owed, c₁, -, htys, rfl⟩ := h
  exact meets_imposeTys htys
    (meets_of_get (alike_imposeRows _).root (fun s v => get_imposeRows _ s v) hm)

/-! ## Steps -/

theorem Meets.weaken {p q bad : Node → Prop} (hpq : ∀ x, p x → q x) {x : Node}
    (h : c.Meets p bad x) : c.Meets q bad x := by
  obtain ⟨y, hy, hb⟩ := h
  exact ⟨y, ReflTransGen.mono (fun z z' hz => ⟨hpq z hz.1, hz.2⟩) _ _ hy, hb⟩

/-- What the search for a root missed is a variable that hangs from another root. -/
theorem not_meets_of_not_overlooks {s : Srt} {r : ℕ} {x : Node}
    (h : ¬ c.Meets flowNode (c.AtAnchor s r) x) (ho : ¬ c.Overlooks s r x) :
    ¬ c.Meets flowNode (c.AtRoot s r) x := by
  rintro ⟨y, hy, hr⟩
  by_cases ha : c.AtAnchor s r y
  · exact h ⟨y, hy, ha⟩
  · exact ho ⟨y, hy, hr, ha⟩

theorem Acyclic.bound (h : c.Acyclic) {s : Srt} {x : ℕ} {val : Struct (Term s)} {p : Prop}
    (hx : c.root s x = x) (hflow : ¬ p → ¬ c.Meets flowNode (c.AtRoot s x) ⟨s, val.val⟩)
    (hrow : s = .row → ¬ c.Meets rowNode (c.AtRoot s x) ⟨s, val.val⟩) :
    ((c.bind s x val).overlook p).Acyclic := by
  have hg := grows_bind (c := c) s x val
  rw [hx] at hg
  have hplain : (c.bind s x val).Plain := h.plain.of_alike (alike_bind s x val)
  exact h.grow hg Or.inl hplain (fun ho => hflow fun hp => ho (Or.inr hp)) hrow

theorem BindsTy.acyclic {x : TyVar} {val : Struct Ty} (h : c.BindsTy x val c') (hc : c.Acyclic)
    (hx : c.Free .ty x) : c'.Acyclic := by
  obtain ⟨c₁, hflow, -, hdata, rfl⟩ := h
  rcases hdata with ⟨-, rfl⟩ | ⟨-, himp⟩
  · refine (hc.of_alike (alike_setKind x .any) fun _ _ _ hb => hb).bound hx.root (fun ho hm => ?_)
      (fun hs => by cases hs)
    exact not_meets_of_not_overlooks hflow ho (meets_setKind hm)
  · refine ((himp.acyclic hc).of_alike (alike_setKind x .any) fun _ _ _ hb => hb).bound
      ((himp.alike.root .ty x).trans hx.root) (fun ho hm => ?_) (fun hs => by cases hs)
    exact not_meets_of_not_overlooks hflow ho (himp.meets (meets_setKind hm))

theorem BindsComp.acyclic {x : CompTyVar} {val : Struct CompTy} (h : c.BindsComp x val c')
    (hc : c.Acyclic) (hx : c.Free .comp x) : c'.Acyclic := by
  obtain ⟨hflow, rfl⟩ := h
  exact hc.bound hx.root (not_meets_of_not_overlooks hflow) (fun hs => by cases hs)

theorem BindsRow.acyclic {x : RowVar} {val : Struct Row} (h : c.BindsRow x val c')
    (hc : c.Acyclic) (hx : c.Free .row x) : c'.Acyclic := by
  obtain ⟨c₁, hocc, hdata, rfl⟩ := h
  have hg := grows_bind (c := c₁.setDeep x false) .row x val
  have ha : c₁.Alike ((c₁.setDeep x false).bind .row x val) := (alike_setDeep ..).trans (alike_bind ..)
  rcases hdata with ⟨-, rfl⟩ | ⟨-, himp⟩
  · rw [root_setDeep, hx.root] at hg
    exact hc.grow_alike hg ha (fun hm => hocc (hm.weaken fun _ _ => trivial))
      fun _ hm => hocc (hm.weaken fun _ _ => trivial)
  · rw [root_setDeep, himp.alike.root, hx.root] at hg
    exact (himp.acyclic hc).grow_alike hg ha
      (fun hm => hocc ((himp.meets hm).weaken fun _ _ => trivial))
      fun _ hm => hocc ((himp.meets hm).weaken fun _ _ => trivial)

theorem Sides.free {s : Srt} {a b : Term s} {x : ℕ} {val : Struct (Term s)}
    (h : c.Sides a b x val) : c.Free s x := by
  rcases h with ⟨hx, -⟩ | ⟨hx, -⟩
  · exact (c.free_of_resolve hx).1
  · exact (c.free_of_resolve hx).1

theorem get_unite_free {s : Srt} {x y : ℕ} (hx : c.Free s x) (hy : c.Free s y) (s' : Srt) (v : ℕ) :
    (c.unite s x y).get s' v = c.get s' v := by
  by_cases hs : s' = s
  · subst hs
    rw [get_unite]
    split
    · next hr =>
        rw [hy.get, ← c.get_root, hr, c.get_root, hx.get]
    · rfl
  · exact get_unite_ne hs x y v

theorem Plain.unite (h : c.Plain) (s : Srt) (x y : ℕ) : (c.unite s x y).Plain := by
  intro v
  by_cases hs : s = .row
  · subst hs
    rw [anchor_unite, root_unite, h]
  · rw [anchor_unite_ne fun he => hs he.symm, root_unite_ne fun he => hs he.symm, h]

theorem Acyclic.unite (h : c.Acyclic) {s : Srt} {x y : ℕ} (hx : c.Free s x) (hy : c.Free s y) :
    (c.unite s x y).Acyclic :=
  h.mono (fun s v b hb => by rwa [get_unite_free hx hy] at hb) id (h.plain.unite s x y)

theorem Acyclic.install {r : TyVar} {k : Kind} (h : c.Acyclic) : (c.install r k).Acyclic := by
  cases hp : k.pin with
  | none =>
    exact h.of_alike (alike_install r k) fun s w b hb => by simpa [install_open _ _ _ hp] using hb
  | some t =>
    obtain ⟨hd, -, hn⟩ := Kind.pin_eq_some.mp hp
    have ha := alike_install (c := c) r k
    rw [install_pinned _ _ hp] at ha ⊢
    have hg := grows_bind (c := c.setKind r .any) .ty r ⟨t, Kind.pin_ne_var hp⟩
    refine h.grow_alike hg ha ?_ (fun hs => by cases hs)
    rintro ⟨y, hy, hat⟩
    rcases ReflTransGen.cases_head hy with rfl | ⟨z, hz, -⟩
    · exact not_atRoot_struct (Kind.pin_ne_var hp) hat
    · exact no_succ_leaf (b := ⟨t, Kind.pin_ne_var hp⟩) (nullary_leaf hn) z hz.2

theorem get_uniteRows {x y : RowVar} (hx : c.Free .row x) (hy : c.Free .row y) (s : Srt) (v : ℕ) :
    (c.uniteRows x y).get s v = c.get s v := by
  have hget : ((c.setDeep (c.root .row x) false).unite .row x y).get s v = c.get s v :=
    get_unite_free (c := c.setDeep (c.root .row x) false) ⟨hx.root, hx.get⟩ ⟨hy.root, hy.get⟩ s v
  unfold uniteRows
  split
  · rfl
  · dsimp only
    split
    · exact hget
    · exact hget

theorem Plain.uniteRows (h : c.Plain) (x y : RowVar) : (c.uniteRows x y).Plain := by
  have hunite : ((c.setDeep (c.root .row x) false).unite .row x y).Plain :=
    (h.of_alike (alike_setDeep ..)).unite .row x y
  unfold Core.uniteRows
  split
  · exact h
  · dsimp only
    split
    · exact hunite
    · exact hunite

theorem overlooked_uniteRows (x y : RowVar) : (c.uniteRows x y).overlooked = c.overlooked := by
  unfold uniteRows
  split
  · rfl
  · dsimp only
    split <;> rfl

theorem Acyclic.uniteRows (h : c.Acyclic) {x y : RowVar} (hx : c.Free .row x) (hy : c.Free .row y) :
    (c.uniteRows x y).Acyclic := by
  refine h.mono (fun s v b hb => by rwa [get_uniteRows hx hy] at hb) (fun ho => ?_)
    (h.plain.uniteRows x y)
  rwa [overlooked_uniteRows]

theorem unifyGrade_eq {ga gb : Grade} (h : c.unifyGrade ga gb = some c') :
    c' = { c with grades := c'.grades } := by
  unfold unifyGrade at h
  split at h
  · cases h
    rfl
  · cases h
    rfl
  · cases h
    rfl
  · split at h
    · cases h
      rfl
    · cases h

theorem get_fresh (s s' : Srt) (v : ℕ) : (c.fresh s).get s' v = c.get s' v := by
  by_cases hs : s' = s
  · subst hs
    rw [fresh, get, cls_setCls_self]
    rfl
  · rw [fresh, get, cls_setCls_ne _ hs]
    rfl

theorem root_fresh (s s' : Srt) (v : ℕ) : (c.fresh s).root s' v = c.root s' v := by
  by_cases hs : s' = s
  · subst hs
    rw [fresh, root, cls_setCls_self]
    rfl
  · rw [fresh, root, cls_setCls_ne _ hs]
    rfl

theorem anchor_fresh (s s' : Srt) (v : ℕ) : (c.fresh s).anchor s' v = c.anchor s' v := by
  by_cases hs : s' = s
  · subst hs
    rw [fresh, anchor, cls_setCls_self]
    rfl
  · rw [fresh, anchor, cls_setCls_ne _ hs]
    rfl

theorem alike_fresh (s : Srt) : c.Alike (c.fresh s) := ⟨root_fresh s, anchor_fresh s, rfl, rfl⟩

theorem Acyclic.fresh (h : c.Acyclic) (s : Srt) : (c.fresh s).Acyclic :=
  h.of_alike (alike_fresh s) fun s' v b hb => by rwa [get_fresh] at hb

/-- A root bound to any term: to stand for a variable, or for a structure. -/
def bindRoot (c : Core) (s : Srt) (r : ℕ) (t : Term s) : Core :=
  (match view t with
    | .inl w => c.bindBare s r w
    | .inr b => c.bind s r b).overlook (c.Meets flowNode (c.AtRoot s r) ⟨s, t⟩)

theorem grows_bindBare {s : Srt} {r w : ℕ} {b : Struct (Term s)} (hb : c.get s w = some b) :
    c.Grows (c.bindBare s r w) s (c.root s r) b := by
  intro s' v b' hv
  by_cases hs : s' = s
  · subst hs
    rw [get_bindBare] at hv
    split at hv
    · next hr =>
        cases hb.symm.trans hv
        exact Or.inr ⟨atRoot_var.mpr ⟨rfl, hr⟩, rfl⟩
    · exact Or.inl hv
  · exact Or.inl ((get_bindBare_ne hs r w v).symm.trans hv)

/-- A root that stands for another has the bindings of that one. -/
theorem Acyclic.bindBare (h : c.Acyclic) {s : Srt} {r : ℕ} (hs : s ≠ .row)
    (hr : c.root s r = r) (w : ℕ) :
    ((c.bindBare s r w).overlook (c.Meets flowNode (c.AtRoot s r) ⟨s, .var w⟩)).Acyclic := by
  have hplain : (c.bindBare s r w).Plain := by
    intro v
    rw [anchor_bindBare, root_bindBare_ne hs.symm, h.plain]
  cases hb : c.get s w with
  | none =>
    refine h.mono (fun s' v b hv => ?_) Or.inl hplain
    by_cases hs' : s' = s
    · subst hs'
      have hv := (get_bindBare s' r w v).symm.trans hv
      rw [hb] at hv
      split at hv
      · cases hv
      · exact hv
    · exact (get_bindBare_ne hs' r w v).symm.trans hv
  | some b =>
    have hg := grows_bindBare (r := r) hb
    rw [hr] at hg
    refine h.grow hg Or.inl hplain (fun ho hm => ho (Or.inr ?_)) fun he => (hs he).elim
    obtain ⟨y, hy, hat⟩ := hm
    exact ⟨y, hy.head ⟨rfl, .bound hb⟩, hat⟩

theorem Acyclic.bindRoot (h : c.Acyclic) {s : Srt} {r : ℕ} {t : Term s} (hs : s ≠ .row)
    (hr : c.root s r = r) : (c.bindRoot s r t).Acyclic := by
  unfold Core.bindRoot
  cases hv : view t with
  | inl w =>
    obtain rfl := view_eq_inl.mp hv
    exact h.bindBare hs hr w
  | inr b =>
    obtain rfl := view_eq_inr.mp hv
    exact h.bound hr id fun he => (hs he).elim

end Core

theorem Unifier.core_bindRoot (u : Unifier) {s : Srt} {r : ℕ} (hr : u.core.root s r = r)
    (t : Term s) : (u.bindRoot s r t).core = u.core.bindRoot s r t := by
  have hcls : (u.setTerms s ((u.terms s).bindRoot r t)).core = match view t with
      | .inl w => u.core.bindBare s r w
      | .inr b => u.core.bind s r b := by
    rw [Unifier.core_setTerms, Store.bindRoot]
    cases view t with
    | inl w => exact congrArg (u.core.setCls s) (Slots.classes_bindBare (s := (u.terms s).slots) hr w)
    | inr b => exact congrArg (u.core.setCls s) (Slots.classes_bind (s := (u.terms s).slots) hr b)
  exact congrArg (Core.overlook · _) hcls

theorem Step.acyclic {x y : Config} (h : Step x y) (hc : x.core.Acyclic) : y.core.Acyclic := by
  cases h with
  | same | hit | aliased | split | payloadFirst | gradeFirst | rowEmpty | rowLabel => exact hc
  | uniteTy ha hb hxy hk =>
    have hx := (Core.free_of_resolve _ ha).1
    have hy := (Core.free_of_resolve _ hb).1
    exact ((hc.unite hx hy).of_alike (Core.alike_setKind ..) fun _ _ _ hb => hb).install
  | uniteComp ha hb => exact hc.unite (Core.free_of_resolve _ ha).1 (Core.free_of_resolve _ hb).1
  | uniteRow ha hb => exact hc.uniteRows (Core.free_of_resolve _ ha).1 (Core.free_of_resolve _ hb).1
  | bindTy hs hb => exact hb.acyclic hc hs.free
  | bindComp hs hb => exact hb.acyclic hc hs.free
  | bindRow hs hb => exact hb.acyclic hc hs.free
  | grade hg =>
    rw [Core.unifyGrade_eq hg]
    exact hc.mono (fun _ _ _ hb => hb) id hc.plain
  | rowRewrite => exact hc.fresh .row

theorem Steps.acyclic {x y : Config} (h : Steps x y) (hc : x.core.Acyclic) : y.core.Acyclic := by
  induction h with
  | refl => exact hc
  | tail _ hyz ih => exact hyz.acyclic ih

theorem Unified.acyclic {s : Srt} {a b : Term s} {u u' : Unifier} {r : Except TypeErrorKind Unit}
    (h : Unified a b u r u') (hc : u.core.Acyclic) : u'.core.Acyclic := by
  cases r with
  | ok _ =>
    obtain ⟨P, hs⟩ := h.steps
    exact hs.acyclic hc
  | error e =>
    obtain ⟨ts, c, P, hs, pre, -, hpre⟩ := h.fails
    exact (hs.acyclic hc).imposeTys hpre

/-! ## Overlooking -/

namespace Core
variable {c c' : Core}

theorem not_meets_free {p : Node → Prop} {s : Srt} {v r : ℕ} (hv : c.get s v = none)
    (hr : c.root s v ≠ r) : ¬ c.Meets p (c.AtRoot s r) ⟨s, .var v⟩ := by
  rintro ⟨y, hy, hat⟩
  rcases ReflTransGen.cases_head hy with rfl | ⟨z, ⟨-, hz⟩, -⟩
  · exact hr (atRoot_var.mp hat).2
  · obtain ⟨b, hb, -⟩ := succ_var.mp hz
    rw [hv] at hb
    cases hb

theorem not_overlooks_data {s s' : Srt} {r : ℕ} {t : Term s'} (ht : t.isData = true) :
    ¬ c.Overlooks s r ⟨s', t⟩ := by
  rintro ⟨y, hy, ⟨w, rfl, -⟩, -⟩
  rcases ReflTransGen.cases_head hy with he | ⟨z, ⟨hp, -⟩, -⟩
  · cases he
    cases ht
  · cases hp.symm.trans ht

theorem BindsTy.overlooked_data {x : TyVar} {val : Struct Ty} (h : c.BindsTy x val c')
    (hd : val.val.isData = true) : c'.overlooked → c.overlooked := by
  obtain ⟨c₁, -, -, hdata, rfl⟩ := h
  rintro (ho | ho)
  · rcases hdata with ⟨-, rfl⟩ | ⟨-, himp⟩
    · exact ho
    · exact himp.alike.overlooked ▸ ho
  · exact (not_overlooks_data hd ho).elim

end Core

theorem Step.overlooked_data {a b : Ty} {x : TyVar} {val : Struct Ty} {c : Core} {y : Config}
    (h : Step ⟨[.eq a b], c, .none⟩ y) (ha : c.resolve a = .var x) (hb : c.resolve b = val.val)
    (hd : val.val.isData = true) : (y.core.overlooked → c.overlooked) ∧ y.tasks = [] := by
  have hne : ∀ v, val.val ≠ .var v := fun v => struct_ne_fromRoot val v
  cases h with
  | same hr => exact (hne _ (hb.symm.trans ((Core.resolve_of_anchor c hr).symm.trans ha))).elim
  | hit hp => exact hp.elim
  | aliased _ hb' => exact (hne _ (hb.symm.trans hb')).elim
  | uniteTy _ hb' => exact (hne _ (hb.symm.trans hb')).elim
  | bindTy hs hbind =>
    refine ⟨?_, rfl⟩
    rcases hs with ⟨-, hv⟩ | ⟨hx, -⟩
    · obtain rfl := Struct.ext (hb.symm.trans hv)
      exact hbind.overlooked_data hd
    · exact (hne _ (hb.symm.trans hx)).elim
  | split ha' _ hsp =>
    obtain rfl := ha.symm.trans ha'
    cases hsp
  | payloadFirst ha' _ hp =>
    obtain rfl := ha.symm.trans ha'
    cases hp
  | gradeFirst ha' _ hp =>
    obtain rfl := ha.symm.trans ha'
    cases hp

/-- A free variable held to data is bound to it in one step, which overlooks nothing. -/
theorem Unified.overlooked_data {u u' : Unifier} {a b : Ty} {x : TyVar} {val : Struct Ty}
    (h : Unified a b u (.ok ()) u') (ha : u.core.resolve a = .var x) (hb : u.core.resolve b = val.val)
    (hd : val.val.isData = true) (ho : u'.overlooked) : u.overlooked := by
  obtain ⟨P, hs⟩ := h.steps
  rcases ReflTransGen.cases_head hs with he | ⟨y, hstep, hrest⟩
  · cases he
  · obtain ⟨hy, hnil⟩ := hstep.overlooked_data ha hb hd
    rcases ReflTransGen.cases_head hrest with rfl | ⟨z, hz, -⟩
    · exact hy ho
    · cases hz <;> cases hnil

/-! ## Reachable stores

A store is reachable by minting variables, unifying (with success or not), marking
variables weak, defaulting a grade, and binding a minted root to a term, as the
instantiation of a recursive scheme or of a site does.
-/

open Run

def Grade.valueStruct : Struct Grade := ⟨.value, rfl⟩

/-- `bindRoot` is instantiation's: a root minted for it is bound to any term, a bare
variable too. -/
inductive Reachable : Unifier → Prop
  | new : Reachable Unifier.new
  | fresh {u : Unifier} (s : Srt) (h : Reachable u) : Reachable (u.fresh s).2
  | freshGrade {u : Unifier} (h : Reachable u) : Reachable u.freshGrade.2
  | freshKindedVar {u : Unifier} (k : Kind) (h : Reachable u) : Reachable (u.freshKindedVar k).2
  | freshDeepRowVar {u : Unifier} (d : Bool) (h : Reachable u) : Reachable (u.freshDeepRowVar d).2
  | setSpan {u : Unifier} (span : Option Span) (h : Reachable u) :
      Reachable { u with spanAt := span }
  | unify {u u' : Unifier} {s : Srt} {a b : Term s} {r : Except TypeErrorKind Unit}
      (h : Reachable u) (hu : Unified a b u r u') : Reachable u'
  | markWeak {u u' : Unifier} {n : ℕ} {s : Srt} {t : Term s} {source : WeakSource}
      (h : Reachable u) (hm : Act.markWeak n t source u = some (.ok (), u')) : Reachable u'
  | markWeakVar {u : Unifier} (s : Srt) (v : ℕ) (source : WeakSource) (h : Reachable u) :
      Reachable (u.markWeakVar s v source)
  | bindGrade {u : Unifier} {v : GradeVar} (h : Reachable u)
      (hv : u.core.grades.get v = none) : Reachable (u.bindGrade v Grade.valueStruct)
  | bindRoot {u : Unifier} {s : Srt} {r : ℕ} {t : Term s} (h : Reachable u)
      (hs : s ≠ .row) (hr : u.core.Free s r) : Reachable (u.bindRoot s r t)

namespace Core

theorem acyclic_new : Unifier.new.core.Acyclic := by
  have hget : ∀ s v, Unifier.new.core.get s v = none := by
    intro s v
    rfl
  have hsize : ∀ p : Node → Prop, Grounded (Unifier.new.core.Edge p) := by
    intro p
    refine Subrelation.wf (r := InvImage (· < ·) fun x : Node => sizeOf x.2) ?_ (InvImage.wf _
      Nat.lt_wfRel.wf)
    rintro y ⟨s, t⟩ ⟨-, hxy⟩
    cases hxy with
    | bound hb =>
      rw [hget] at hb
      cases hb
    | child hc =>
      show sizeOf y.2 < sizeOf t
      cases t <;> simp [Term.children] at hc <;> rcases hc with rfl | rfl <;> simp <;> omega
  exact ⟨fun _ => hsize _, hsize _, fun _ => rfl⟩

end Core

theorem Reachable.acyclic {u : Unifier} (h : Reachable u) : u.core.Acyclic := by
  induction h with
  | new => exact Core.acyclic_new
  | fresh s _ ih =>
    rw [Unifier.core_fresh]
    exact ih.fresh s
  | freshGrade _ ih => exact ih.mono (fun _ _ _ hb => hb) id ih.plain
  | @freshKindedVar u k _ ih =>
    have hroot : (u.fresh .ty).2.core.root .ty (u.fresh .ty).1 = (u.fresh .ty).1 := by
      rw [Unifier.core_fresh, Core.root_fresh]
      exact ((u.core.cls .ty).above _ (le_refl _)).1
    show ((u.fresh .ty).2.installKind (u.fresh .ty).1 ⟨k, _⟩).core.Acyclic
    rw [Unifier.core_installKind _ _ hroot, Unifier.core_fresh]
    exact (ih.fresh .ty).install
  | @freshDeepRowVar u d _ ih =>
    have hfresh := ih.fresh .row
    rw [← Unifier.core_fresh] at hfresh
    cases d with
    | false => exact hfresh
    | true => exact hfresh.mono (fun _ _ _ hb => hb) id hfresh.plain
  | setSpan span _ ih => exact ih
  | unify _ hu ih => exact hu.acyclic ih
  | markWeak _ hm ih =>
    rw [(Act.sat_markWeak _ _ hm).2]
    exact ih
  | markWeakVar s v source _ ih =>
    rw [Unifier.core_markWeakVar]
    exact ih
  | bindGrade _ _ ih =>
    rw [Unifier.core_bindGrade]
    exact ih.mono (fun _ _ _ hb => hb) id ih.plain
  | bindRoot _ hs hr ih =>
    rw [Unifier.core_bindRoot _ hr.root]
    exact ih.bindRoot hs hr.root

/-! ## Cycles -/

theorem transGen_of_chain {c : Core} {p : Node → Prop} {x y : Node} {l : List Node}
    (h : List.IsChain c.Succ (x :: l ++ [y])) (hp : ∀ z ∈ x :: l, p z) :
    TransGen (c.Edge p) x y := by
  induction l generalizing x with
  | nil =>
    rw [List.cons_append, List.nil_append, List.isChain_pair] at h
    exact .single ⟨hp x (List.mem_cons_self ..), h⟩
  | cons z l ih =>
    rw [List.cons_append, List.cons_append, List.isChain_cons_cons] at h
    have hrest := ih h.2 fun w hw => hp w (List.mem_cons_of_mem _ hw)
    exact .head ⟨hp x (List.mem_cons_self ..), h.1⟩ hrest

theorem Core.Acyclic.crosses {c : Core} (h : c.Acyclic) (ho : ¬ c.overlooked) {x : Node}
    {l : List Node} (hl : List.IsChain c.Succ (x :: l ++ [x])) : ∃ y ∈ x :: l, y.2.isData = true := by
  by_contra hn
  refine (h.flow ho).no_cycle (transGen_of_chain hl fun z hz => ?_)
  by_contra hd
  exact hn ⟨z, hz, by simpa [Core.flowNode] using hd⟩

theorem Core.Acyclic.rooted {c : Core} (h : c.Acyclic) {x : Node} {l : List Node}
    (hl : List.IsChain c.Succ (x :: l ++ [x])) :
    ∃ s v, s ≠ .row ∧ (⟨s, .var v⟩ : Node) ∈ x :: l := by
  by_contra hn
  refine h.row.no_cycle (transGen_of_chain hl fun z hz => ?_)
  by_contra hd
  obtain ⟨s, t⟩ := z
  rw [Core.rowNode, not_or] at hd
  obtain ⟨v, hv⟩ := Option.ne_none_iff_exists'.mp hd.2
  refine hn ⟨s, v, hd.1, ?_⟩
  rwa [← Term.eq_var_of_asVar hv]

/-! ## Walks end -/

namespace Core

/-- The type and computation variables that may be bound. -/
def allMarks (c : Core) : Finset (Srt × ℕ) :=
  (Finset.range (c.cls .ty).next).image (Prod.mk .ty) ∪
    (Finset.range (c.cls .comp).next).image (Prod.mk .comp)

theorem mem_allMarks {c : Core} {s : Srt} {r : ℕ} (hs : s ≠ .row) (h : r < (c.cls s).next) :
    (s, r) ∈ c.allMarks := by
  cases s with
  | row => exact (hs rfl).elim
  | ty => exact Finset.mem_union_left _ (Finset.mem_image_of_mem _ (Finset.mem_range.mpr h))
  | comp => exact Finset.mem_union_right _ (Finset.mem_image_of_mem _ (Finset.mem_range.mpr h))

theorem anchor_lt {c : Core} {s : Srt} {v : ℕ} {b : Struct (Term s)} (h : c.get s v = some b) :
    c.anchor s v < (c.cls s).next := by
  by_contra hge
  obtain ⟨hr, hn⟩ := (c.cls s).above _ (not_lt.mp hge)
  have hv : c.root s v = c.anchor s v := (c.root_anchor s v).symm.trans hr
  rw [← get_root, hv] at h
  exact absurd (hn.symm.trans h) (by simp)

/-- Induction over a walk that marks what it expands: down a structure or a row,
or through a variable whose own root is marked for the first time. -/
theorem Acyclic.walk {c : Core} (h : c.Acyclic) {σ : Type} (seen : σ → Finset (Srt × ℕ))
    {P : Node → σ → Prop}
    (hstruct : ∀ x s, x.2.asVar = none → (∀ y ∈ x.2.children, ∀ s', seen s ⊆ seen s' → P y s') →
      P x s)
    (hrow : ∀ v s, (∀ b, c.get .row v = some b → ∀ s', seen s ⊆ seen s' → P ⟨.row, b.val⟩ s') →
      P ⟨.row, .var v⟩ s)
    (hvar : ∀ s v st, s ≠ .row → (c.anchor s v < (c.cls s).next → (s, c.anchor s v) ∉ seen st →
      ∀ y st', insert (s, c.anchor s v) (seen st) ⊆ seen st' → P y st') → P ⟨s, .var v⟩ st)
    (x : Node) (s : σ) : P x s := by
  refine walk_induction h.row c.allMarks seen (fun x s hdown hmark => ?_) x s
  obtain ⟨sort, t⟩ := x
  cases hv : view t with
  | inr b =>
    obtain rfl := view_eq_inr.mp hv
    exact hstruct _ s b.headed fun y hy s' hs => hdown y ⟨Or.inr b.headed, .child hy⟩ s' hs
  | inl v =>
    obtain rfl := view_eq_inl.mp hv
    rw [fromRoot_term] at *
    by_cases hsort : sort = .row
    · subst hsort
      exact hrow v s fun b hb s' hs => hdown _ ⟨Or.inl rfl, .bound hb⟩ s' hs
    · exact hvar sort v s hsort fun hlt hn y s' hs => hmark _ (mem_allMarks hsort hlt) hn y s' hs

end Core

namespace Visited

/-- The marks of a walk, as one set. -/
def all (V : Visited) : Finset (Srt × ℕ) :=
  (V.seen .ty).image (Prod.mk .ty) ∪ (V.seen .comp).image (Prod.mk .comp)

theorem mem_all {V : Visited} {s : Srt} {r : ℕ} : (s, r) ∈ V.all ↔ s ≠ .row ∧ r ∈ V.seen s := by
  cases s <;> simp [all]

theorem all_mono {V V' : Visited} (h : ∀ s, V.seen s ⊆ V'.seen s) : V.all ⊆ V'.all := by
  rintro ⟨s, r⟩ hm
  obtain ⟨hs, hr⟩ := mem_all.mp hm
  exact mem_all.mpr ⟨hs, h s hr⟩

end Visited

end Ral.Typecheck
