import Mathlib.Logic.Relation
import Ral.Typecheck.Unifier

/-! # What a unifier means

The part of a unifier that decides: partitions with bindings in place of
forests, kinds and deep rows without their spans, no weak marks. Path compression,
weakness and provenance are invisible in it. Its graph has terms for nodes: edges
lead from a bound variable to what it is bound to, and from a structure to its
sub-terms.
-/

namespace Ral.Typecheck
open Ral.UnionFind

@[simp] theorem fromRoot_term {s : Srt} (v : ℕ) : (Unifiable.fromRoot v : Term s) = .var v := rfl

@[simp] theorem fromRoot_grade (v : ℕ) : (Unifiable.fromRoot v : Grade) = .var v := rfl

/-! ## Heads -/

section Head
variable {T : Type} [Unifiable T] (k : Classes (Struct T))

def headIn (t : T) : T :=
  match view t with
  | .inl v => (k.get v).elim (Unifiable.fromRoot (k.root v)) Struct.val
  | .inr _ => t

theorem headIn_bound {v : ℕ} {b : Struct T} (h : k.get v = some b) :
    headIn k (Unifiable.fromRoot v) = b.1 := by
  simp only [headIn, view_fromRoot, h]
  rfl

theorem headIn_free {v : ℕ} (h : k.get v = none) :
    headIn k (Unifiable.fromRoot v : T) = Unifiable.fromRoot (k.root v) := by
  simp only [headIn, view_fromRoot, h]
  rfl

theorem headIn_struct (b : Struct T) : headIn k b.1 = b.1 := by
  simp [headIn]

theorem fromRoot_inj {v w : ℕ} (h : (Unifiable.fromRoot v : T) = Unifiable.fromRoot w) : v = w := by
  have ha := congrArg Unifiable.asVar h
  simpa [Unifiable.asVar_fromRoot] using ha

theorem struct_ne_fromRoot (b : Struct T) (v : ℕ) : b.1 ≠ Unifiable.fromRoot v := by
  intro hb
  have hn := b.2
  rw [hb, Unifiable.asVar_fromRoot] at hn
  cases hn

theorem headIn_eq_var {t : T} {v : ℕ} (h : headIn k t = Unifiable.fromRoot v) :
    k.get v = none ∧ k.root v = v ∧ ∃ w, t = Unifiable.fromRoot w ∧ k.root w = v := by
  cases hw : view t with
  | inl w =>
    obtain rfl := view_eq_inl.mp hw
    cases hg : k.get w with
    | some b =>
      rw [headIn_bound k hg] at h
      exact (struct_ne_fromRoot b v h).elim
    | none =>
      rw [headIn_free k hg] at h
      have hr := fromRoot_inj h
      subst hr
      exact ⟨by rw [k.get_root, hg], k.root_root w, w, rfl, rfl⟩
  | inr b =>
    obtain rfl := view_eq_inr.mp hw
    rw [headIn_struct] at h
    exact (struct_ne_fromRoot b v h).elim

theorem headIn_root (v : ℕ) :
    headIn k (Unifiable.fromRoot (k.root v) : T) = headIn k (Unifiable.fromRoot v) := by
  simp [headIn]

@[simp] theorem headIn_headIn (t : T) : headIn k (headIn k t) = headIn k t := by
  cases hw : view t with
  | inl w =>
    obtain rfl := view_eq_inl.mp hw
    cases hg : k.get w with
    | some b => rw [headIn_bound k hg, headIn_struct]
    | none =>
      rw [headIn_free k hg, headIn_root]
      exact headIn_free k hg
  | inr b =>
    obtain rfl := view_eq_inr.mp hw
    rw [headIn_struct, headIn_struct]

theorem headIn_free_iff {w x : ℕ} (hx : k.get x = none) (hr : k.root x = x) :
    headIn k (Unifiable.fromRoot w : T) = Unifiable.fromRoot x ↔ k.root w = x := by
  constructor
  · intro h
    obtain ⟨-, -, w', hw', hroot⟩ := headIn_eq_var k h
    rwa [fromRoot_inj hw']
  · rintro rfl
    rw [headIn_free k (by rwa [k.get_root] at hx)]

/-- Two free variables united: the head of one is the other. -/
theorem headIn_unite [DecidableEq T] {x y : ℕ} (hx : k.get x = none) (hrx : k.root x = x)
    (hy : k.get y = none) (hry : k.root y = y) (t : T) : headIn (k.unite x y) t =
      if headIn k t = Unifiable.fromRoot x then Unifiable.fromRoot y else headIn k t := by
  cases hv : view t with
  | inr b =>
    obtain rfl := view_eq_inr.mp hv
    rw [headIn_struct, headIn_struct, if_neg (struct_ne_fromRoot b x)]
  | inl w =>
    obtain rfl := view_eq_inl.mp hv
    have hhead : headIn k (Unifiable.fromRoot w : T) = Unifiable.fromRoot x ↔ k.root w = x :=
      headIn_free_iff k hx hrx
    by_cases hw : k.root w = x
    · have hget : (k.unite x y).get w = none := by
        rw [Classes.get_unite, hrx, if_pos hw, hy]
      rw [if_pos (hhead.mpr hw), headIn_free _ hget, Classes.root_unite, hrx, if_pos hw, hry]
    · have hroot : (k.unite x y).root w = k.root w := by
        rw [Classes.root_unite, hrx, if_neg hw]
      have hget : (k.unite x y).get w = k.get w := by
        rw [Classes.get_unite, hrx, if_neg hw]
      rw [if_neg fun h => hw (hhead.mp h)]
      cases hb : k.get w with
      | none => rw [headIn_free k hb, headIn_free _ (hget.trans hb), hroot]
      | some b => rw [headIn_bound k hb, headIn_bound _ (hget.trans hb)]

/-- A free variable bound: its head is the structure. -/
theorem headIn_bind [DecidableEq T] {x : ℕ} (hx : k.get x = none) (hrx : k.root x = x)
    (b : Struct T) (t : T) : headIn (k.bind x b) t =
      if headIn k t = Unifiable.fromRoot x then b.1 else headIn k t := by
  cases hv : view t with
  | inr b' =>
    obtain rfl := view_eq_inr.mp hv
    rw [headIn_struct, headIn_struct, if_neg (struct_ne_fromRoot b' x)]
  | inl w =>
    obtain rfl := view_eq_inl.mp hv
    have hhead : headIn k (Unifiable.fromRoot w : T) = Unifiable.fromRoot x ↔ k.root w = x :=
      headIn_free_iff k hx hrx
    by_cases hw : k.root w = x
    · have hget : (k.bind x b).get w = some b := by
        rw [Classes.get_bind, hrx, if_pos hw]
      rw [if_pos (hhead.mpr hw), headIn_bound _ hget]
    · have hget : (k.bind x b).get w = k.get w := by
        rw [Classes.get_bind, hrx, if_neg hw]
      rw [if_neg fun h => hw (hhead.mp h)]
      cases hb : k.get w with
      | none => rw [headIn_free k hb, headIn_free _ (hget.trans hb), Classes.root_bind]
      | some b' => rw [headIn_bound k hb, headIn_bound _ (hget.trans hb)]

theorem Store.resolve_eq (st : Store T) (t : T) : st.resolve t = headIn st.slots.classes t := by
  unfold Store.resolve headIn
  cases view t with
  | inl v =>
    have hg : st.slots.get v = st.slots.classes.get v := rfl
    simp only [hg]
    cases st.slots.classes.get v <;> rfl
  | inr b => rfl

/-- What a root that stands for no other is bound to. -/
theorem Store.get_of_getRef {st : Store T} {v : ℕ} {t : T} (hv : st.slots.anchor v = st.slots.root v)
    (h : st.getRef v = some t) : ∃ b, st.slots.classes.get v = some b ∧ b.1 = t := by
  unfold Store.getRef Store.root at h
  cases hs : st.slots.slot (st.slots.anchor v) with
  | free | parent p =>
    rw [hs] at h
    cases h
  | bare w =>
    have hup := st.slots.up_root v
    rw [← hv, Slots.up, hs] at hup
    cases hup
  | bound b =>
    rw [hs] at h
    refine ⟨b, ?_, Option.some.inj h⟩
    show Slots.get _ v = _
    rw [Slots.get, ← hv, hs]

theorem Store.root_lt {st : Store T} {v : ℕ} {t : T} (h : st.getRef v = some t) :
    st.root v < st.slots.next := by
  by_contra hge
  unfold Store.getRef at h
  rw [st.slots.above _ (not_lt.mp hge)] at h
  cases h

end Head

def OpenKind.any : OpenKind := ⟨.ANY, Kind.any_pin⟩

/-- Partitions of the variables with their bindings, and the kinds of the roots. -/
@[ext] structure Core where
  cls : (s : Srt) → Classes (Struct (Term s))
  grades : Classes (Struct Grade)
  kinds : TyVar → OpenKind
  deeps : RowVar → Bool
  overlooked : Prop

namespace Core

variable (c : Core)

def root (s : Srt) (v : ℕ) : ℕ := (c.cls s).root v

/-- The root a mark is put on, which may stand for another. -/
def anchor (s : Srt) (v : ℕ) : ℕ := (c.cls s).anchor v

def get (s : Srt) (v : ℕ) : Option (Struct (Term s)) := (c.cls s).get v

@[simp] theorem root_root (s : Srt) (v : ℕ) : c.root s (c.root s v) = c.root s v :=
  (c.cls s).root_root v

@[simp] theorem root_anchor (s : Srt) (v : ℕ) : c.root s (c.anchor s v) = c.root s v :=
  (c.cls s).root_anchor v

@[simp] theorem anchor_anchor (s : Srt) (v : ℕ) : c.anchor s (c.anchor s v) = c.anchor s v :=
  (c.cls s).anchor_anchor v

theorem anchor_of_root {s : Srt} {v : ℕ} (h : c.root s v = v) : c.anchor s v = v :=
  (c.cls s).anchor_of_root h

@[simp] theorem get_root (s : Srt) (v : ℕ) : c.get s (c.root s v) = c.get s v :=
  (c.cls s).get_root v

def resolve {s : Srt} (t : Term s) : Term s := headIn (c.cls s) t

def resolveGrade (g : Grade) : Grade := headIn c.grades g

def kind (v : TyVar) : Kind := (c.kinds (c.root .ty v)).1

def deep (v : RowVar) : Bool := c.deeps (c.root .row v)

@[simp] theorem kind_root (v : TyVar) : c.kind (c.root .ty v) = c.kind v := by
  rw [kind, root_root, kind]

/-- A root that stands for nothing yet. -/
structure Free (s : Srt) (v : ℕ) : Prop where
  root : c.root s v = v
  get : c.get s v = none

theorem Free.anchor {c : Core} {s : Srt} {v : ℕ} (h : c.Free s v) : c.anchor s v = v :=
  c.anchor_of_root h.root

theorem resolve_bound {s : Srt} {v : ℕ} {b : Struct (Term s)} (h : c.get s v = some b) :
    c.resolve (.var v : Term s) = b.1 := headIn_bound _ h

theorem resolve_free {s : Srt} {v : ℕ} (h : c.get s v = none) :
    c.resolve (.var v : Term s) = .var (c.root s v) := headIn_free _ h

theorem resolve_struct {s : Srt} (b : Struct (Term s)) : c.resolve b.1 = b.1 := headIn_struct _ b

theorem resolve_root {s : Srt} (v : ℕ) :
    c.resolve (.var (c.root s v) : Term s) = c.resolve (.var v) := headIn_root _ v

theorem root_of_anchor {s : Srt} {v w : ℕ} (h : c.anchor s v = c.anchor s w) :
    c.root s v = c.root s w :=
  (c.cls s).root_of_anchor_eq h

theorem get_of_anchor {s : Srt} {v w : ℕ} (h : c.anchor s v = c.anchor s w) :
    c.get s v = c.get s w := by
  rw [← c.get_root, c.root_of_anchor h, c.get_root]

theorem resolve_of_anchor {s : Srt} {v w : ℕ} (h : c.anchor s v = c.anchor s w) :
    c.resolve (.var v : Term s) = c.resolve (.var w) := by
  rw [← c.resolve_root v, ← c.resolve_root w, c.root_of_anchor h]

@[simp] theorem resolve_resolve {s : Srt} (t : Term s) : c.resolve (c.resolve t) = c.resolve t :=
  headIn_headIn _ t

theorem get_of_resolve {s : Srt} {v : ℕ} {b : Struct (Term s)} (h : c.resolve (.var v) = b.1) :
    c.get s v = some b := by
  cases hg : c.get s v with
  | some b' =>
    rw [c.resolve_bound hg] at h
    exact congrArg some (Struct.ext h)
  | none =>
    rw [c.resolve_free hg] at h
    exact (struct_ne_fromRoot b _ h.symm).elim

theorem free_of_resolve {s : Srt} {t : Term s} {v : ℕ} (h : c.resolve t = .var v) :
    c.Free s v ∧ ∃ w, t = .var w ∧ c.root s w = v := by
  obtain ⟨hg, hr, hw⟩ := headIn_eq_var (c.cls s) (v := v) h
  exact ⟨⟨hr, hg⟩, hw⟩

/-! ## Updates -/

def setCls (s : Srt) (k : Classes (Struct (Term s))) : Core :=
  { c with cls := Function.update c.cls s k }

def fresh (s : Srt) : Core := c.setCls s (c.cls s).fresh

def bind (s : Srt) (v : ℕ) (b : Struct (Term s)) : Core := c.setCls s ((c.cls s).bind v b)

def unite (s : Srt) (a b : ℕ) : Core := c.setCls s ((c.cls s).unite a b)

def bindBare (s : Srt) (a b : ℕ) : Core := c.setCls s ((c.cls s).bindBare a b)

def overlook (p : Prop) : Core := { c with overlooked := c.overlooked ∨ p }

def setKind (r : TyVar) (k : OpenKind) : Core := { c with kinds := Function.update c.kinds r k }

def setDeep (r : RowVar) (d : Bool) : Core := { c with deeps := Function.update c.deeps r d }

def install (r : TyVar) (k : Kind) : Core :=
  match h : k.pin with
  | some t => (c.setKind r .any).bind .ty r ⟨t, Kind.pin_ne_var h⟩
  | none => c.setKind r ⟨k, h⟩

theorem install_pinned (r : TyVar) {k : Kind} {t : Ty} (h : k.pin = some t) :
    c.install r k = (c.setKind r .any).bind .ty r ⟨t, Kind.pin_ne_var h⟩ := by
  unfold install
  split
  · next t' ht' =>
      obtain rfl := Option.some.inj (h.symm.trans ht')
      rfl
  · next hn => simp [h] at hn

theorem install_open (r : TyVar) (k : Kind) (h : k.pin = none) :
    c.install r k = c.setKind r ⟨k, h⟩ := by
  unfold install
  split
  · next t ht => simp [h] at ht
  · rfl

def uniteTys (a b : TyVar) (k : Kind) : Core :=
  ((c.unite .ty a b).setKind a .any).install b k

def uniteRows (a b : RowVar) : Core :=
  if c.root .row a = c.root .row b then c
  else
    let d := c.deeps (c.root .row a)
    let c' := (c.setDeep (c.root .row a) false).unite .row a b
    if d then c'.setDeep (c.root .row b) true else c'

def narrow (v : TyVar) (k : Kind) : Option Core :=
  ((c.kind v).meet k).map fun m => if m = c.kind v then c else c.install (c.root .ty v) m

def imposeTys : Core → List TyVar → Option Core
  | c, [] => some c
  | c, v :: vs => (c.narrow v .DATA).bind fun c => imposeTys c vs

def imposeRows : Core → List RowVar → Core
  | c, [] => c
  | c, v :: vs => imposeRows (c.setDeep (c.anchor .row v) true) vs

def bindGrade (v : GradeVar) (g : Struct Grade) : Core := { c with grades := c.grades.bind v g }

def uniteGrades (a b : GradeVar) : Core := { c with grades := c.grades.unite a b }

/-- Two grades made one, unless they are distinct constants. -/
def unifyGrade (a b : Grade) : Option Core :=
  match view (c.resolveGrade a), view (c.resolveGrade b) with
  | .inl x, .inl y => some (c.uniteGrades x y)
  | .inl v, .inr g | .inr g, .inl v => some (c.bindGrade v g)
  | .inr a, .inr b => if a.1 = b.1 then some c else none

/-! ## What the updates do -/

section Updates
variable {c}

@[simp] theorem root_setKind (r : TyVar) (k : OpenKind) (s : Srt) (v : ℕ) :
    (c.setKind r k).root s v = c.root s v := rfl

@[simp] theorem get_setKind (r : TyVar) (k : OpenKind) (s : Srt) (v : ℕ) :
    (c.setKind r k).get s v = c.get s v := rfl

@[simp] theorem resolve_setKind (r : TyVar) (k : OpenKind) {s : Srt} (t : Term s) :
    (c.setKind r k).resolve t = c.resolve t := rfl

@[simp] theorem deep_setKind (r : TyVar) (k : OpenKind) (v : RowVar) :
    (c.setKind r k).deep v = c.deep v := rfl

theorem kind_setKind (r : TyVar) (k : OpenKind) (v : TyVar) :
    (c.setKind r k).kind v = if c.root .ty v = r then k.1 else c.kind v := by
  show (Function.update c.kinds r k (c.root .ty v)).1 = _
  by_cases h : c.root .ty v = r
  · simp [h]
  · simp [h, kind]

@[simp] theorem root_setDeep (r : RowVar) (d : Bool) (s : Srt) (v : ℕ) :
    (c.setDeep r d).root s v = c.root s v := rfl

@[simp] theorem get_setDeep (r : RowVar) (d : Bool) (s : Srt) (v : ℕ) :
    (c.setDeep r d).get s v = c.get s v := rfl

@[simp] theorem resolve_setDeep (r : RowVar) (d : Bool) {s : Srt} (t : Term s) :
    (c.setDeep r d).resolve t = c.resolve t := rfl

@[simp] theorem kind_setDeep (r : RowVar) (d : Bool) (v : TyVar) :
    (c.setDeep r d).kind v = c.kind v := rfl

theorem cls_setCls_ne {s s' : Srt} (k : Classes (Struct (Term s))) (h : s' ≠ s) :
    (c.setCls s k).cls s' = c.cls s' := Function.update_of_ne h ..

@[simp] theorem cls_setCls_self {s : Srt} (k : Classes (Struct (Term s))) :
    (c.setCls s k).cls s = k := Function.update_self ..

@[simp] theorem root_bind (s : Srt) (v : ℕ) (b : Struct (Term s)) (s' : Srt) (w : ℕ) :
    (c.bind s v b).root s' w = c.root s' w := by
  by_cases h : s' = s
  · subst h
    simp [bind, root]
  · simp [bind, root, cls_setCls_ne _ h]

theorem get_bind (s : Srt) (v w : ℕ) (b : Struct (Term s)) :
    (c.bind s v b).get s w = if c.root s w = c.root s v then some b else c.get s w := by
  rw [bind, get, cls_setCls_self]
  rfl

theorem get_bind_ne {s s' : Srt} (h : s' ≠ s) (v w : ℕ) (b : Struct (Term s)) :
    (c.bind s v b).get s' w = c.get s' w := by
  simp [bind, get, cls_setCls_ne _ h]

@[simp] theorem kind_bind (s : Srt) (v : ℕ) (b : Struct (Term s)) (w : TyVar) :
    (c.bind s v b).kind w = c.kind w := by
  simp only [kind, root_bind]
  rfl

theorem root_unite (s : Srt) (a b w : ℕ) :
    (c.unite s a b).root s w = if c.root s w = c.root s a then c.root s b else c.root s w := by
  rw [unite, root, cls_setCls_self]
  rfl

theorem root_unite_ne {s s' : Srt} (h : s' ≠ s) (a b w : ℕ) :
    (c.unite s a b).root s' w = c.root s' w := by
  simp [unite, root, cls_setCls_ne _ h]

theorem anchor_unite (s : Srt) (a b w : ℕ) : (c.unite s a b).anchor s w =
    if c.anchor s w = c.root s a then c.root s b else c.anchor s w := by
  rw [unite, anchor, cls_setCls_self]
  rfl

theorem anchor_unite_ne {s s' : Srt} (h : s' ≠ s) (a b w : ℕ) :
    (c.unite s a b).anchor s' w = c.anchor s' w := by
  simp [unite, anchor, cls_setCls_ne _ h]

theorem get_unite (s : Srt) (a b w : ℕ) :
    (c.unite s a b).get s w = if c.root s w = c.root s a then c.get s b else c.get s w := by
  rw [unite, get, cls_setCls_self]
  rfl

theorem get_unite_ne {s s' : Srt} (h : s' ≠ s) (a b w : ℕ) :
    (c.unite s a b).get s' w = c.get s' w := by
  simp [unite, get, cls_setCls_ne _ h]

theorem anchor_bind (s : Srt) (v : ℕ) (b : Struct (Term s)) (s' : Srt) (w : ℕ) :
    (c.bind s v b).anchor s' w = c.anchor s' w := by
  by_cases h : s' = s
  · subst h
    rw [bind, anchor, cls_setCls_self]
    rfl
  · simp [bind, anchor, cls_setCls_ne _ h]

theorem root_bindBare (s : Srt) (a b w : ℕ) : (c.bindBare s a b).root s w =
    if c.root s w = c.root s a then c.root s b else c.root s w := by
  rw [bindBare, root, cls_setCls_self]
  rfl

theorem root_bindBare_ne {s s' : Srt} (h : s' ≠ s) (a b w : ℕ) :
    (c.bindBare s a b).root s' w = c.root s' w := by
  simp [bindBare, root, cls_setCls_ne _ h]

theorem anchor_bindBare (s : Srt) (a b : ℕ) (s' : Srt) (w : ℕ) :
    (c.bindBare s a b).anchor s' w = c.anchor s' w := by
  by_cases h : s' = s
  · subst h
    rw [bindBare, anchor, cls_setCls_self]
    rfl
  · simp [bindBare, anchor, cls_setCls_ne _ h]

theorem get_bindBare (s : Srt) (a b w : ℕ) :
    (c.bindBare s a b).get s w = if c.root s w = c.root s a then c.get s b else c.get s w := by
  rw [bindBare, get, cls_setCls_self]
  rfl

theorem get_bindBare_ne {s s' : Srt} (h : s' ≠ s) (a b w : ℕ) :
    (c.bindBare s a b).get s' w = c.get s' w := by
  simp [bindBare, get, cls_setCls_ne _ h]

/-- The partitions and the grades are the same, whatever the bindings and kinds. -/
structure Alike (c c' : Core) : Prop where
  root : ∀ s v, c'.root s v = c.root s v
  anchor : ∀ s v, c'.anchor s v = c.anchor s v
  grades : c'.grades = c.grades
  overlooked : c'.overlooked = c.overlooked

theorem Alike.refl (c : Core) : c.Alike c := ⟨fun _ _ => rfl, fun _ _ => rfl, rfl, rfl⟩

theorem Alike.trans {c₁ c₂ : Core} (h : c.Alike c₁) (h' : c₁.Alike c₂) : c.Alike c₂ :=
  ⟨fun s v => (h'.root s v).trans (h.root s v), fun s v => (h'.anchor s v).trans (h.anchor s v),
    h'.grades.trans h.grades, h'.overlooked.trans h.overlooked⟩

theorem alike_setKind (r : TyVar) (k : OpenKind) : c.Alike (c.setKind r k) :=
  ⟨fun _ _ => rfl, fun _ _ => rfl, rfl, rfl⟩

theorem alike_setDeep (r : RowVar) (d : Bool) : c.Alike (c.setDeep r d) :=
  ⟨fun _ _ => rfl, fun _ _ => rfl, rfl, rfl⟩

theorem alike_bind (s : Srt) (v : ℕ) (b : Struct (Term s)) : c.Alike (c.bind s v b) :=
  ⟨root_bind s v b, anchor_bind s v b, rfl, rfl⟩

theorem alike_install (r : TyVar) (k : Kind) : c.Alike (c.install r k) := by
  cases h : k.pin with
  | none =>
    rw [install_open c r k h]
    exact alike_setKind r _
  | some t =>
    rw [install_pinned c r h]
    exact (alike_setKind r .any).trans (alike_bind ..)

@[simp] theorem root_install (r : TyVar) (k : Kind) (s : Srt) (v : ℕ) :
    (c.install r k).root s v = c.root s v := (alike_install r k).root s v

theorem get_install_away {r : TyVar} {v : ℕ} (hv : c.root .ty v ≠ c.root .ty r) (k : Kind) :
    (c.install r k).get .ty v = c.get .ty v := by
  cases h : k.pin with
  | none => simp [install_open c r k h]
  | some t => simp [install_pinned c r h, get_bind, hv]

theorem kind_install_away {r : TyVar} {v : ℕ} (hv : c.root .ty v ≠ r) (k : Kind) :
    (c.install r k).kind v = c.kind v := by
  cases h : k.pin with
  | none => simp [install_open c r k h, kind_setKind, hv]
  | some t => simp [install_pinned c r h, kind_setKind, hv]

theorem narrow_away {c' : Core} {v w : TyVar} {k : Kind} (h : c.narrow v k = some c')
    (hw : c.root .ty w ≠ c.root .ty v) :
    c'.get .ty w = c.get .ty w ∧ c'.kind w = c.kind w := by
  unfold narrow at h
  cases hm : (c.kind v).meet k with
  | none => simp [hm] at h
  | some m =>
    simp only [hm, Option.map_some, Option.some.injEq] at h
    subst h
    split
    · exact ⟨rfl, rfl⟩
    · exact ⟨get_install_away (by simpa using hw) m, kind_install_away hw m⟩

theorem alike_narrow {c' : Core} {v : TyVar} {k : Kind} (h : c.narrow v k = some c') : c.Alike c' := by
  obtain ⟨m, -, rfl⟩ := Option.map_eq_some_iff.mp h
  split
  · exact .refl c
  · exact alike_install _ _

theorem alike_imposeTys {c' : Core} {vs : List TyVar} (h : c.imposeTys vs = some c') : c.Alike c' := by
  induction vs generalizing c with
  | nil =>
    cases h
    exact .refl _
  | cons v vs ih =>
    obtain ⟨c₁, h₁, h₂⟩ := Option.bind_eq_some_iff.mp h
    exact (alike_narrow h₁).trans (ih h₂)

theorem alike_imposeRows (vs : List RowVar) : c.Alike (c.imposeRows vs) := by
  induction vs generalizing c with
  | nil => exact .refl c
  | cons v vs ih => exact (alike_setDeep ..).trans ih

theorem get_imposeRows (vs : List RowVar) (s : Srt) (w : ℕ) :
    (c.imposeRows vs).get s w = c.get s w := by
  induction vs generalizing c with
  | nil => rfl
  | cons v vs ih => exact ih

theorem kind_imposeRows (vs : List RowVar) (w : TyVar) : (c.imposeRows vs).kind w = c.kind w := by
  induction vs generalizing c with
  | nil => rfl
  | cons v vs ih => exact ih

/-- Grades unified: the two heads become one of them, a constant where either is. -/
theorem resolveGrade_unifyGrade {c' : Core} {ga gb : Grade} (h : c.unifyGrade ga gb = some c') :
    ∃ g, (g = c.resolveGrade ga ∨ g = c.resolveGrade gb) ∧
      ((c.resolveGrade ga).asVar = none → g = c.resolveGrade ga) ∧
      ((c.resolveGrade gb).asVar = none → g = c.resolveGrade gb) ∧
      ∀ k, c'.resolveGrade k =
        if c.resolveGrade k = c.resolveGrade ga ∨ c.resolveGrade k = c.resolveGrade gb then g
        else c.resolveGrade k := by
  unfold unifyGrade at h
  cases ha : view (c.resolveGrade ga) with
  | inl x =>
    have hxa := view_eq_inl.mp ha
    obtain ⟨hx, hrx, -⟩ := headIn_eq_var c.grades hxa
    cases hb : view (c.resolveGrade gb) with
    | inl y =>
      have hyb := view_eq_inl.mp hb
      obtain ⟨hy, hry, -⟩ := headIn_eq_var c.grades hyb
      simp only [ha, hb, Option.some.injEq] at h
      subst h
      refine ⟨.var y, Or.inr hyb.symm, fun hn => ?_, fun _ => hyb.symm, fun k => ?_⟩
      · rw [hxa] at hn
        cases hn
      · show headIn (c.grades.unite x y) k = _
        rw [headIn_unite _ hx hrx hy hry, hxa, hyb]
        show (if c.resolveGrade k = .var x then _ else c.resolveGrade k) = _
        by_cases hkx : c.resolveGrade k = .var x
        · simp [hkx]
        · by_cases hky : c.resolveGrade k = .var y <;> simp [hkx, hky]
    | inr b =>
      have hbb := view_eq_inr.mp hb
      simp only [ha, hb, Option.some.injEq] at h
      subst h
      refine ⟨b.1, Or.inr hbb.symm, fun hn => ?_, fun _ => hbb.symm, fun k => ?_⟩
      · rw [hxa] at hn
        cases hn
      · show headIn (c.grades.bind x b) k = _
        rw [headIn_bind _ hx hrx, hxa, hbb]
        show (if c.resolveGrade k = .var x then _ else c.resolveGrade k) = _
        by_cases hkx : c.resolveGrade k = .var x
        · simp [hkx]
        · by_cases hkb : c.resolveGrade k = b.1 <;> simp [hkx, hkb]
  | inr a =>
    have haa := view_eq_inr.mp ha
    cases hb : view (c.resolveGrade gb) with
    | inl y =>
      have hyb := view_eq_inl.mp hb
      obtain ⟨hy, hry, -⟩ := headIn_eq_var c.grades hyb
      simp only [ha, hb, Option.some.injEq] at h
      subst h
      refine ⟨a.1, Or.inl haa.symm, fun _ => haa.symm, fun hn => ?_, fun k => ?_⟩
      · rw [hyb] at hn
        cases hn
      · show headIn (c.grades.bind y a) k = _
        rw [headIn_bind _ hy hry, hyb, haa]
        show (if c.resolveGrade k = .var y then _ else c.resolveGrade k) = _
        by_cases hky : c.resolveGrade k = .var y
        · simp [hky]
        · by_cases hka : c.resolveGrade k = a.1 <;> simp [hky, hka]
    | inr b =>
      have hbb := view_eq_inr.mp hb
      simp only [ha, hb] at h
      split at h
      · next he =>
          cases h
          refine ⟨a.1, Or.inl haa.symm, fun _ => haa.symm, fun _ => he.trans hbb.symm, fun k => ?_⟩
          rw [haa, hbb, ← he]
          by_cases hka : c.resolveGrade k = a.1 <;> simp [hka]
      · cases h

theorem setKind_any {r : TyVar} (h : c.kinds r = .any) : c.setKind r .any = c := by
  unfold setKind
  rw [← h, Function.update_eq_self]

theorem setDeep_false {r : RowVar} (h : c.deeps r = false) : c.setDeep r false = c := by
  unfold setDeep
  rw [← h, Function.update_eq_self]

end Updates

end Core

/-! ## The graph of a store -/

abbrev Node : Type := Σ s, Term s

def Term.isData {s : Srt} : Term s → Bool
  | list _ | map _ | record _ | variant _ => true
  | _ => false

namespace Core

variable (c : Core)

inductive Succ : Node → Node → Prop
  | bound {s : Srt} {v : ℕ} {b : Struct (Term s)} (h : c.get s v = some b) :
      Succ ⟨s, .var v⟩ ⟨s, b.val⟩
  | child {x y : Node} (h : y ∈ x.2.children) : Succ x y

def Edge (p : Node → Prop) (x y : Node) : Prop := p x ∧ c.Succ x y

def anyNode (_ : Node) : Prop := True

def flowNode (x : Node) : Prop := x.2.isData = false

def AtRoot (s : Srt) (r : ℕ) (x : Node) : Prop := ∃ v, x = ⟨s, .var v⟩ ∧ c.root s v = r

def AtAnchor (s : Srt) (r : ℕ) (x : Node) : Prop := ∃ v, x = ⟨s, .var v⟩ ∧ c.anchor s v = r

def Meets (p bad : Node → Prop) (x : Node) : Prop :=
  ∃ y, Relation.ReflTransGen (c.Edge p) x y ∧ bad y

/-- Without crossing data `x` leads to a variable that stands for the free variable
`r` from another root. -/
def Overlooks (s : Srt) (r : ℕ) (x : Node) : Prop :=
  c.Meets flowNode (fun y => c.AtRoot s r y ∧ ¬ c.AtAnchor s r y) x

end Core

/-! ## The meaning of a unifier -/

namespace Unifier

def core (u : Unifier) : Core where
  cls s := (u.terms s).slots.classes
  grades := u.grades.slots.classes
  kinds r := ((u.kinds r).map Prod.fst).getD .any
  deeps r := (u.deepRows r).isSome
  overlooked := u.overlooked

variable (u : Unifier)

@[simp] theorem root_eq (s : Srt) (v : ℕ) : u.root s v = u.core.anchor s v := rfl

@[simp] theorem core_resolve {s : Srt} (t : Term s) : u.resolve t = u.core.resolve t := by
  exact (u.terms s).resolve_eq t

@[simp] theorem core_resolveGrade (g : Grade) : u.resolveGrade g = u.core.resolveGrade g := by
  exact u.grades.resolve_eq g

theorem core_kindAt (r : TyVar) : (u.kindAt r).kind = (u.core.kinds r).1 := by
  cases h : u.kinds r <;> simp [kindAt, core, h, OpenKind.any]

theorem core_kinded {v : TyVar} (h : u.core.root .ty v = v) : (u.kinded v).kind = u.core.kind v := by
  rw [Core.kind, h]
  show (u.kindAt (u.core.anchor .ty v)).kind = _
  rw [u.core.anchor_of_root h, core_kindAt]

theorem core_setTerms (s : Srt) (store : Store (Term s)) :
    (u.setTerms s store).core = u.core.setCls s store.slots.classes := by
  refine Core.ext (funext fun s' => ?_) rfl rfl rfl rfl
  show ((u.setTerms s store).terms s').slots.classes =
    Function.update u.core.cls s store.slots.classes s'
  by_cases h : s' = s
  · subst h
    simp
  · rw [u.setTerms_ne store h, Function.update_of_ne h]
    rfl

theorem core_setTerms_same (s : Srt) (store : Store (Term s))
    (h : store.slots.classes = (u.terms s).slots.classes) : (u.setTerms s store).core = u.core := by
  rw [core_setTerms, h]
  exact Core.ext (Function.update_eq_self s u.core.cls) rfl rfl rfl rfl

@[simp] theorem core_fresh (s : Srt) : (u.fresh s).2.core = u.core.fresh s :=
  (u.core_setTerms s _).trans rfl

@[simp] theorem find_fst (s : Srt) (v : ℕ) : (u.find s v).1 = u.core.anchor s v :=
  (u.terms s).slots.find_fst v

@[simp] theorem core_find (s : Srt) (v : ℕ) : (u.find s v).2.core = u.core :=
  u.core_setTerms_same s _ ((u.terms s).slots.classes_find v)

@[simp] theorem core_markWeakVar (s : Srt) (v : ℕ) (source : WeakSource) :
    (u.markWeakVar s v source).core = u.core :=
  u.core_setTerms_same s _ ((u.terms s).slots.classes_find v)

@[simp] theorem core_noteBound (r : TyVar) : (u.noteBound r).core = u.core := by
  unfold noteBound
  split <;> rfl

theorem core_bindTerm {s : Srt} {v : ℕ} (b : Struct (Term s)) (h : u.core.root s v = v) :
    (u.bindTerm s v b).core = u.core.bind s v b := by
  rw [bindTerm, core_setTerms, Core.bind]
  exact congrArg _ (Slots.classes_bind (s := (u.terms s).slots) h b)

end Unifier

theorem Unifier.core_overlook (u : Unifier) (p : Prop) : (u.overlook p).core = u.core.overlook p := rfl

theorem Store.classes_unite {T : Type} [Unifiable T] (st : Store T) {a b : ℕ}
    (ha : st.slots.root a = a) (hb : st.slots.root b = b) :
    (st.unite a b).slots.classes = st.slots.classes.unite a b := by
  have hca : (st.find a).2.slots.classes = st.slots.classes := st.slots.classes_find a
  have hcb : ((st.find a).2.find b).2.slots.classes = st.slots.classes :=
    ((st.find a).2.slots.classes_find b).trans hca
  have hfa : (st.find a).1 = a := (st.slots.find_fst a).trans (st.slots.classes.anchor_of_root ha)
  have hfb : ((st.find a).2.find b).1 = b := by
    refine ((st.find a).2.slots.find_fst b).trans ?_
    exact (congrFun (congrArg Classes.anchor hca) b).trans (st.slots.classes.anchor_of_root hb)
  unfold Store.unite
  by_cases hab : a = b
  · rw [if_pos hab, Classes.unite_of_root_eq _ (congrArg _ hab)]
  · simp only [if_neg hab, hfa, hfb]
    rw [Slots.classes_unite, hcb]

namespace Unifier

variable (u : Unifier)

theorem core_uniteTerms {s : Srt} {a b : ℕ} (ha : u.core.root s a = a) (hb : u.core.root s b = b) :
    (u.uniteTerms s a b).core = u.core.unite s a b := by
  rw [uniteTerms, core_setTerms, Core.unite]
  exact congrArg _ ((u.terms s).classes_unite ha hb)

theorem core_removeKind (r : TyVar) : (u.removeKind r).core = u.core.setKind r .any := by
  refine Core.ext rfl rfl (funext fun v => ?_) rfl rfl
  by_cases h : v = r
  · simp [removeKind, core, Core.setKind, h]
  · simp [removeKind, core, Core.setKind, h]

theorem core_installKind {r : TyVar} (k : Kinded) (h : u.core.root .ty r = r) :
    (u.installKind r k).core = u.core.install r k.kind := by
  unfold installKind
  split
  · next t ht =>
      have hr : (u.removeKind r).core.root .ty r = r := by
        rw [core_removeKind]
        exact h
      rw [core_bindTerm _ _ hr, core_removeKind, Core.install_pinned _ _ ht]
  · next hn =>
      rw [Core.install_open _ _ _ hn]
      by_cases ha : k.kind.isAny
      · have hk : k.kind = .ANY := by simpa [Kind.isAny] using ha
        rw [if_pos ha, core_removeKind]
        congr 1
        exact Subtype.ext hk.symm
      · rw [if_neg ha]
        refine Core.ext rfl rfl (funext fun v => ?_) rfl rfl
        by_cases hv : v = r
        · simp [core, Core.setKind, hv]
        · simp [core, Core.setKind, hv]

theorem core_deepen (r : RowVar) (w : Option Span) : (u.deepen r w).core = u.core.setDeep r true := by
  refine Core.ext rfl rfl rfl (funext fun v => ?_) rfl
  by_cases hv : v = r
  · simp [deepen, core, Core.setDeep, hv]
  · simp [deepen, core, Core.setDeep, hv]

theorem core_shallow (r : RowVar) :
    ({ u with deepRows := Function.update u.deepRows r none } : Unifier).core =
      u.core.setDeep r false := by
  refine Core.ext rfl rfl rfl (funext fun v => ?_) rfl
  by_cases hv : v = r
  · simp [core, Core.setDeep, hv]
  · simp [core, Core.setDeep, hv]

theorem core_uniteRows {a b : RowVar} (ha : u.core.root .row a = a) (hb : u.core.root .row b = b) :
    (u.uniteRows a b).core = u.core.uniteRows a b := by
  have hca := u.core_find .row a
  have hcb := ((u.find .row a).2.core_find .row b).trans hca
  have hra := u.find_fst .row a
  have hrb := (u.find .row a).2.find_fst .row b
  rw [hca] at hrb
  rw [u.core.anchor_of_root ha] at hra
  rw [u.core.anchor_of_root hb] at hrb
  unfold uniteRows Core.uniteRows
  simp only [hra, hrb, ha, hb]
  by_cases h : a = b
  · rw [if_pos h, if_pos h]
    exact hcb
  · rw [if_neg h, if_neg h]
    generalize hv : ((u.find .row a).2.find .row b).2 = v at hcb ⊢
    have hdeep : (v.deepRows a).isSome = u.core.deeps a := by
      rw [← hcb]
      rfl
    have hcore : (Unifier.uniteTerms { v with deepRows := Function.update v.deepRows a none } .row a b).core =
        (u.core.setDeep a false).unite .row a b := by
      have hshallow := core_shallow v a
      rw [hcb] at hshallow
      rw [core_uniteTerms _ (by rw [hshallow]; exact ha) (by rw [hshallow]; exact hb), hshallow]
    cases hd : v.deepRows a with
    | none =>
      rw [hd] at hdeep
      simp only [← hdeep, Option.isSome_none, Bool.false_eq_true, if_false]
      exact hcore
    | some w =>
      rw [hd] at hdeep
      simp only [← hdeep, Option.isSome_some, if_true]
      rw [core_deepen, hcore]

theorem core_bindGrade (v : GradeVar) (g : Struct Grade) :
    (u.bindGrade v g).core = u.core.bindGrade v g := by
  have hc : (u.grades.find v).2.slots.classes = u.grades.slots.classes :=
    u.grades.slots.classes_find v
  have hr : (u.grades.find v).1 = u.grades.slots.root v := (u.grades.slots.find_fst v).trans (u.gradesPlain v)
  have hroot : (u.grades.find v).2.slots.root (u.grades.slots.root v) = u.grades.slots.root v := by
    have h := congrFun (congrArg Classes.root hc) (u.grades.slots.root v)
    exact h.trans (u.grades.slots.root_root v)
  refine Core.ext rfl ?_ rfl rfl rfl
  show ((u.grades.find v).2.slots.bind (u.grades.find v).1 g).classes =
    u.grades.slots.classes.bind v g
  rw [hr, Slots.classes_bind (s := (u.grades.find v).2.slots) hroot, hc]
  exact u.grades.slots.classes.bind_root v g

theorem unifyGrade_spec (a b : Grade) :
    (∃ c, u.core.unifyGrade a b = some c ∧ (u.unifyGrade a b).1 = true ∧
        (u.unifyGrade a b).2.core = c) ∨
      (u.core.unifyGrade a b = none ∧ (u.unifyGrade a b).1 = false ∧
        (u.unifyGrade a b).2.core = u.core) := by
  unfold unifyGrade Core.unifyGrade
  simp only [core_resolveGrade]
  have hfree : ∀ {g : Grade} {x : ℕ}, view (u.core.resolveGrade g) = .inl x → u.core.grades.root x = x :=
    fun h => (headIn_eq_var _ (view_eq_inl.mp h)).2.1
  cases ha : view (u.core.resolveGrade a) with
  | inl x =>
    cases hb : view (u.core.resolveGrade b) with
    | inl y =>
      refine Or.inl ⟨_, rfl, rfl, Core.ext rfl ?_ rfl rfl rfl⟩
      exact u.grades.classes_unite (hfree ha) (hfree hb)
    | inr g => exact Or.inl ⟨_, rfl, rfl, u.core_bindGrade x g⟩
  | inr g =>
    cases hb : view (u.core.resolveGrade b) with
    | inl y => exact Or.inl ⟨_, rfl, rfl, u.core_bindGrade y g⟩
    | inr g' =>
      by_cases h : g.1 = g'.1
      · exact Or.inl ⟨u.core, by simp [h], by simp [h], rfl⟩
      · exact Or.inr ⟨by simp [h], by simp [h], rfl⟩

end Unifier

end Ral.Typecheck
