import Ral.Typecheck.Reachable

/-! # Grades

A producer whose grade is output produces `Unit`. The grade and the payload of a
producer are solved apart, so what a run keeps is stronger: producers that share
an open grade agree on whether, and through which variable, their payloads can
be `Unit`.
-/

namespace Ral.Typecheck
open Relation

/-! ## Payloads that can be `Unit` -/

/-- Whether a payload is `Unit`, is free and may become it, or never will. -/
inductive UnitStatus
  | unit
  | free (v : TyVar)
  | never
deriving DecidableEq

namespace Core

def unitStatus (c : Core) (t : Ty) : UnitStatus :=
  match c.resolve t with
  | .unit => .unit
  | .var v => if (c.kind v).admits .unit then .free v else .never
  | _ => .never

variable {c c' : Core}

theorem unitStatus_eq_unit {t : Ty} : c.unitStatus t = .unit ↔ c.resolve t = .unit := by
  unfold unitStatus
  split
  · next h => simp [h]
  · next v h => split <;> simp [h]
  · next hu _ => simpa using hu

theorem unitStatus_struct (b : Struct Ty) :
    c.unitStatus b.val = if b.val = .unit then .unit else .never := by
  unfold unitStatus
  rw [resolve_struct]
  obtain ⟨t, ht⟩ := b
  cases t with
  | var v => cases ht
  | _ => rfl

theorem unitStatus_bound {v : TyVar} {b : Struct Ty} (h : c.get .ty v = some b) :
    c.unitStatus (.var v) = c.unitStatus b.val := by
  unfold unitStatus
  rw [resolve_bound _ h, resolve_struct]

theorem unitStatus_free {v : TyVar} (h : c.get .ty v = none) :
    c.unitStatus (.var v) = if (c.kind v).admits .unit then .free (c.root .ty v) else .never := by
  unfold unitStatus
  rw [resolve_free _ h]
  dsimp only
  rw [kind_root]

theorem unitStatus_resolve (t : Ty) : c.unitStatus (c.resolve t) = c.unitStatus t := by
  unfold unitStatus
  rw [resolve_resolve]

/-- Statuses move together, and what is settled stays. -/
def Moves (c c' : Core) : Prop :=
  ∃ f : UnitStatus → UnitStatus, f .unit = .unit ∧ f .never = .never ∧
    ∀ t, c'.unitStatus t = f (c.unitStatus t)

theorem Moves.refl (c : Core) : c.Moves c := ⟨id, rfl, rfl, fun _ => rfl⟩

theorem Moves.trans {c'' : Core} (h : c.Moves c') (h' : c'.Moves c'') : c.Moves c'' := by
  obtain ⟨f, hf, hfn, hst⟩ := h
  obtain ⟨g, hg, hgn, hst'⟩ := h'
  refine ⟨g ∘ f, by rw [Function.comp, hf, hg], by rw [Function.comp, hfn, hgn], fun t => ?_⟩
  rw [hst', hst]
  rfl

theorem Moves.eq (h : c.Moves c') {a b : Ty} (hab : c.unitStatus a = c.unitStatus b) :
    c'.unitStatus a = c'.unitStatus b := by
  obtain ⟨f, -, -, hst⟩ := h
  rw [hst, hst, hab]

theorem Moves.unit (h : c.Moves c') {a : Ty} (ha : c.unitStatus a = .unit) :
    c'.unitStatus a = .unit := by
  obtain ⟨f, hf, -, hst⟩ := h
  rw [hst, ha, hf]

theorem Moves.settled (h : c.Moves c') {a : Ty} {b : Struct Ty} (ha : c.resolve a = b.val) :
    c'.unitStatus a = if b.val = .unit then .unit else .never := by
  obtain ⟨f, hf, hfn, hst⟩ := h
  rw [hst, ← unitStatus_resolve, ha, unitStatus_struct]
  split
  · exact hf
  · exact hfn

theorem unitStatus_var {v : TyVar} (hroot : c'.root .ty v = c.root .ty v)
    (hget : c'.get .ty v = c.get .ty v) (hkind : c'.kind v = c.kind v) :
    c'.unitStatus (.var v) = c.unitStatus (.var v) := by
  cases hb : c.get .ty v with
  | none => rw [unitStatus_free hb, unitStatus_free (hget.trans hb), hroot, hkind]
  | some b =>
    rw [unitStatus_bound hb, unitStatus_bound (hget.trans hb), unitStatus_struct, unitStatus_struct]

theorem moves_of_ty (hroot : ∀ v, c'.root .ty v = c.root .ty v)
    (hget : ∀ v, c'.get .ty v = c.get .ty v) (hkind : ∀ v, c'.kind v = c.kind v) : c.Moves c' := by
  refine ⟨id, rfl, rfl, fun t => ?_⟩
  cases hv : view t with
  | inr b =>
    obtain rfl := view_eq_inr.mp hv
    rw [unitStatus_struct, unitStatus_struct, id]
  | inl v =>
    obtain rfl := view_eq_inl.mp hv
    exact unitStatus_var (hroot v) (hget v) (hkind v)

/-- Some classes of free variables get one status, the others what they came to. -/
theorem Moves.classes {c₁ : Core} (hm : c.Moves c₁) {S : ℕ → Prop} {q : UnitStatus}
    (hfree : ∀ r, S r → c.Free .ty r)
    (haway : ∀ w, ¬ S (c.root .ty w) → c'.unitStatus (.var w) = c₁.unitStatus (.var w))
    (hin : ∀ w, S (c.root .ty w) → c'.unitStatus (.var w) = q)
    (hnever : ∀ r, S r → (c.kind r).admits .unit = false → q = .never) : c.Moves c' := by
  classical
  obtain ⟨f, hf, hfn, hst⟩ := hm
  refine ⟨fun s => match s with
    | .free r => if S r then q else f (.free r)
    | s => f s, hf, hfn, fun t => ?_⟩
  cases hv : view t with
  | inr b =>
    obtain rfl := view_eq_inr.mp hv
    rw [unitStatus_struct, unitStatus_struct]
    split
    · exact hf.symm
    · exact hfn.symm
  | inl v =>
    obtain rfl := view_eq_inl.mp hv
    rw [fromRoot_term]
    by_cases hS : S (c.root .ty v)
    · have hk := c.kind_root v
      rw [hin v hS, unitStatus_free (c.get_root .ty v ▸ (hfree _ hS).get)]
      cases ha : (c.kind v).admits .unit with
      | true => simp [hS]
      | false => simpa [hfn] using hnever _ hS (hk ▸ ha)
    · rw [haway v hS, hst]
      cases hb : c.get .ty v with
      | none =>
        rw [unitStatus_free hb]
        cases (c.kind v).admits .unit with
        | true => simp [hS]
        | false => rfl
      | some b =>
        rw [unitStatus_bound hb, unitStatus_struct]
        split <;> rfl

/-- The others stay as they are. -/
theorem moves_of_classes {S : ℕ → Prop} {q : UnitStatus} (hfree : ∀ r, S r → c.Free .ty r)
    (haway : ∀ w, ¬ S (c.root .ty w) →
      c'.root .ty w = c.root .ty w ∧ c'.get .ty w = c.get .ty w ∧ c'.kind w = c.kind w)
    (hin : ∀ w, S (c.root .ty w) → c'.unitStatus (.var w) = q)
    (hnever : ∀ r, S r → (c.kind r).admits .unit = false → q = .never) : c.Moves c' := by
  refine (Moves.refl c).classes hfree (fun w hw => ?_) hin hnever
  obtain ⟨hr, hg, hk⟩ := haway w hw
  exact unitStatus_var hr hg hk

/-! ## Updates -/

def kindStatus (r : TyVar) (m : Kind) : UnitStatus :=
  match m.pin with
  | some t => if t = .unit then .unit else .never
  | none => if m.admits .unit then .free r else .never

theorem kindStatus_never {r : TyVar} {m : Kind} (h : m.admits .unit = false) :
    kindStatus r m = .never := by
  unfold kindStatus
  split
  · next t hp =>
      obtain ⟨hd, hh, hn⟩ := Kind.pin_eq_some.mp hp
      rw [if_neg]
      rintro rfl
      obtain rfl : Head.unit = hd := Option.some.inj (Head.of_nullary hn)
      simp [Kind.admits, hh] at h
  · rw [h]
    rfl

theorem unitStatus_install {r w : TyVar} {m : Kind} (hr : c.Free .ty r) (hw : c.root .ty w = r) :
    (c.install r m).unitStatus (.var w) = kindStatus r m := by
  unfold kindStatus
  split
  · next t hp =>
      have hget : (c.install r m).get .ty w = some ⟨t, Kind.pin_ne_var hp⟩ := by
        rw [install_pinned _ _ hp, get_bind, root_setKind, root_setKind, hw, hr.root, if_pos rfl]
      rw [unitStatus_bound hget, unitStatus_struct]
  · next hp =>
      have hget : (c.install r m).get .ty w = none := by
        rw [install_open _ _ _ hp, get_setKind, ← c.get_root, hw, hr.get]
      have hkind : (c.install r m).kind w = m := by
        rw [install_open _ _ _ hp, kind_setKind, if_pos hw]
      rw [unitStatus_free hget, hkind, root_install, hw]

theorem moves_install {r : TyVar} {m : Kind} (hr : c.Free .ty r)
    (hm : m.admits .unit = true → (c.kind r).admits .unit = true) : c.Moves (c.install r m) := by
  refine moves_of_classes (S := fun s => s = r) (q := kindStatus r m) (fun s hs => hs ▸ hr)
    (fun w hw => ?_) (fun w hw => unitStatus_install hr hw) (fun s hs ha => ?_)
  · exact ⟨root_install r m .ty w, get_install_away (by rwa [hr.root]) m, kind_install_away hw m⟩
  · subst hs
    refine kindStatus_never ?_
    by_contra hadm
    rw [hm (by simpa using hadm)] at ha
    cases ha

theorem moves_narrow {v : TyVar} {k : Kind} (hv : c.get .ty v = none) (h : c.narrow v k = some c') :
    c.Moves c' := by
  unfold narrow at h
  obtain ⟨m, hm, rfl⟩ := Option.map_eq_some_iff.mp h
  split
  · exact .refl c
  · refine moves_install ⟨c.root_root .ty v, (c.get_root .ty v).trans hv⟩ fun ha => ?_
    rw [kind_root]
    have hsub := (Kind.meet_le_left hm).heads
    exact decide_eq_true (hsub (of_decide_eq_true ha))

/-- The kind of a bound variable is not read. -/
theorem moves_setKind {r : TyVar} {k : OpenKind} {b : Struct Ty} (hb : c.get .ty r = some b) :
    c.Moves (c.setKind r k) := by
  refine ⟨id, rfl, rfl, fun t => ?_⟩
  cases hv : view t with
  | inr b =>
    obtain rfl := view_eq_inr.mp hv
    rw [unitStatus_struct, unitStatus_struct, id]
  | inl v =>
    obtain rfl := view_eq_inl.mp hv
    rw [fromRoot_term]
    by_cases hw : c.root .ty v = r
    · have hg : c.get .ty v = some b := by rw [← c.get_root, hw, hb]
      have hg' : (c.setKind r k).get .ty v = some b := hg
      rw [unitStatus_bound hg, unitStatus_bound hg', unitStatus_struct, unitStatus_struct, id]
    · exact unitStatus_var rfl rfl (by rw [kind_setKind, if_neg hw])

/-- Narrowing to data a variable that may be anything, or is data already. -/
theorem narrow_data {w : TyVar} (hk : c.kind w = .ANY ∨ c.kind w = .DATA)
    (h : c.narrow w .DATA = some c') :
    c' = c ∨ c' = c.setKind (c.root .ty w) ⟨.DATA, by decide⟩ := by
  have hpin : Kind.DATA.pin = none := by decide
  obtain ⟨m, hm, rfl⟩ := Option.map_eq_some_iff.mp h
  rcases hk with hk | hk
  · have hmeet : Kind.ANY.meet .DATA = some .DATA := by decide
    rw [hk, hmeet] at hm
    cases hm
    rw [hk, if_neg (by decide), install_open c _ _ hpin]
    exact Or.inr rfl
  · have hmeet : Kind.DATA.meet .DATA = some .DATA := by decide
    rw [hk, hmeet] at hm
    cases hm
    rw [hk, if_pos rfl]
    exact Or.inl rfl

/-- A root that is free, or was when it was first narrowed to data. -/
structure Narrowable (c : Core) (v : TyVar) : Prop where
  root : c.root .ty v = v
  free : c.get .ty v = none ∨ c.kind v = .ANY ∨ c.kind v = .DATA

theorem Narrowable.moves {v : TyVar} (hv : c.Narrowable v) (h : c.narrow v .DATA = some c') :
    c.Moves c' := by
  cases hb : c.get .ty v with
  | none => exact moves_narrow hb h
  | some b =>
    have hk := hv.free.resolve_left (by simp [hb])
    rcases narrow_data hk h with rfl | rfl
    · exact .refl _
    · rw [hv.root]
      exact moves_setKind hb

/-- Narrowed a first time it is free still, or its kind was spent on a structure. -/
theorem free_narrow {v : TyVar} (hb : c.get .ty v = none) (h : c.narrow v .DATA = some c') :
    c'.get .ty v = none ∨ c'.kind v = .ANY := by
  obtain ⟨m, -, rfl⟩ := Option.map_eq_some_iff.mp h
  split
  · exact Or.inl hb
  · cases hp : m.pin with
    | none =>
      left
      rw [install_open c _ _ hp, get_setKind, hb]
    | some t =>
      right
      rw [install_pinned c _ hp, kind_bind, kind_setKind, if_pos rfl]
      rfl

theorem Narrowable.narrow {v w : TyVar} (hv : c.Narrowable v) (hw : c.Narrowable w)
    (h : c.narrow w .DATA = some c') : c'.Narrowable v := by
  have hr : c'.root .ty v = v := ((alike_narrow h).root .ty v).trans hv.root
  refine ⟨hr, ?_⟩
  by_cases hne : v = w
  · subst hne
    cases hb : c.get .ty v with
    | none => exact (free_narrow hb h).imp_right Or.inl
    | some b =>
      right
      have hk := hv.free.resolve_left (by simp [hb])
      rcases narrow_data hk h with rfl | rfl
      · exact hk
      · exact Or.inr (by rw [kind_setKind, if_pos rfl])
  · have haway := narrow_away h (by rwa [hv.root, hw.root])
    rw [haway.1, haway.2]
    exact hv.free

theorem moves_imposeTys {vs : List TyVar} (hvs : ∀ v ∈ vs, c.Narrowable v)
    (h : c.imposeTys vs = some c') : c.Moves c' := by
  induction vs generalizing c with
  | nil =>
    cases h
    exact Moves.refl _
  | cons v vs ih =>
    obtain ⟨c₁, h₁, h₂⟩ := Option.bind_eq_some_iff.mp h
    have hv := hvs v (List.mem_cons_self ..)
    refine (hv.moves h₁).trans (ih (fun w hw => ?_) h₂)
    exact (hvs w (List.mem_cons_of_mem _ hw)).narrow hv h₁

theorem Free.narrowable {v : TyVar} (h : c.Free .ty v) : c.Narrowable v := ⟨h.root, Or.inl h.get⟩

theorem Aborts.moves (h : c.Aborts c') : c.Moves c' := by
  obtain ⟨pre, hfree, h⟩ := h
  exact moves_imposeTys (fun v hv => (hfree v hv).narrowable) h

theorem moves_imposeRows (vs : List RowVar) : c.Moves (c.imposeRows vs) :=
  moves_of_ty ((alike_imposeRows vs).root .ty) (fun _ => get_imposeRows vs _ _)
    (fun _ => kind_imposeRows vs _)

theorem Imposes.moves (h : c.Imposes c') : c.Moves c' := by
  obtain ⟨owed, c₁, hfree, htys, rfl⟩ := h
  exact (moves_imposeTys (fun v hv => (hfree v hv).narrowable) htys).trans (moves_imposeRows _)

section Unite
variable {x y : TyVar} {k : Kind}

theorem root_merge (hx : c.Free .ty x) (hy : c.Free .ty y) (w : ℕ) :
    ((c.unite .ty x y).setKind x .any).root .ty w = if c.root .ty w = x then y else c.root .ty w := by
  rw [root_setKind, root_unite, hx.root, hy.root]

theorem free_merge (hx : c.Free .ty x) (hy : c.Free .ty y) (hxy : x ≠ y) :
    ((c.unite .ty x y).setKind x .any).Free .ty y := by
  refine ⟨?_, (get_unite_free hx hy .ty y).trans hy.get⟩
  rw [root_merge hx hy, hy.root, if_neg hxy.symm]

theorem unitStatus_uniteTys (hx : c.Free .ty x) (hy : c.Free .ty y) (hxy : x ≠ y) {w : ℕ}
    (hw : c.root .ty w = x ∨ c.root .ty w = y) :
    (c.uniteTys x y k).unitStatus (.var w) = kindStatus y k := by
  refine unitStatus_install (free_merge hx hy hxy) ?_
  rw [root_merge hx hy]
  rcases hw with hw | hw
  · rw [if_pos hw]
  · rw [hw, if_neg hxy.symm]

/-- Two free variables made one, of the meet of their kinds. -/
theorem moves_uniteTys (hx : c.Free .ty x) (hy : c.Free .ty y) (hxy : x ≠ y)
    (hk : (c.kind x).meet (c.kind y) = some k) : c.Moves (c.uniteTys x y k) := by
  have hfree := free_merge hx hy hxy
  refine moves_of_classes (S := fun s => s = x ∨ s = y) (q := kindStatus y k) ?_ (fun w hw => ?_)
    (fun w hw => unitStatus_uniteTys hx hy hxy hw) (fun r hr ha => kindStatus_never ?_)
  · rintro r (rfl | rfl)
    · exact hx
    · exact hy
  · rw [not_or] at hw
    have hr : ((c.unite .ty x y).setKind x .any).root .ty w = c.root .ty w := by
      rw [root_merge hx hy, if_neg hw.1]
    refine ⟨(root_install ..).trans hr,
      (get_install_away ?_ k).trans (get_unite_free hx hy .ty w), ?_⟩
    · rw [hr, hfree.root]
      exact hw.2
    · refine (kind_install_away (by rw [hr]; exact hw.2) k).trans ?_
      rw [kind_setKind]
      show (if (c.unite .ty x y).root .ty w = x then _ else (c.kinds _).1) = _
      have hr' : (c.unite .ty x y).root .ty w = c.root .ty w := hr
      rw [hr', if_neg hw.1]
      rfl
  · rw [Kind.admits, decide_eq_false_iff_not] at ha ⊢
    intro hmem
    rcases hr with rfl | rfl
    · exact ha ((Kind.meet_le_left hk).heads hmem)
    · exact ha ((Kind.meet_le_right hk).heads hmem)

end Unite

section Bind
variable {x : TyVar} {val : Struct Ty}

theorem BindsTy.get (h : c.BindsTy x val c') (hx : c.Free .ty x) {w : ℕ} (hw : c.root .ty w = x) :
    c'.get .ty w = some val := by
  obtain ⟨c₁, -, -, hdata, rfl⟩ := h
  have hroot : ∀ w, c₁.root .ty w = c.root .ty w := by
    rcases hdata with ⟨-, rfl⟩ | ⟨-, himp⟩
    · exact fun _ => rfl
    · exact himp.alike.root .ty
  refine (get_bind .ty x w val).trans (if_pos ?_)
  rw [root_setKind, root_setKind, hroot, hroot, hw, hx.root]

theorem BindsTy.moves (h : c.BindsTy x val c') (hx : c.Free .ty x) : c.Moves c' := by
  have hget : ∀ w, c.root .ty w = x → c'.get .ty w = some val := fun w hw => h.get hx hw
  obtain ⟨c₁, -, hhead, hdata, rfl⟩ := h
  obtain ⟨hm, hroot⟩ : c.Moves c₁ ∧ ∀ w, c₁.root .ty w = c.root .ty w := by
    rcases hdata with ⟨-, rfl⟩ | ⟨-, himp⟩
    · exact ⟨.refl _, fun _ => rfl⟩
    · exact ⟨himp.moves, himp.alike.root .ty⟩
  refine hm.classes (S := fun s => s = x) (q := if val.val = .unit then .unit else .never)
    (fun s hs => hs ▸ hx) (fun w hw => ?_) (fun w hw => ?_) (fun s hs ha => ?_)
  · have hw₁ : c₁.root .ty w ≠ x := by rwa [hroot]
    refine unitStatus_var (root_bind .ty x val .ty w) ?_ ?_
    · refine (get_bind .ty x w val).trans (if_neg ?_)
      rwa [root_setKind, root_setKind, hroot x, hx.root]
    · refine (kind_bind .ty x val w).trans ((kind_setKind x .any w).trans (if_neg hw₁))
  · rw [unitStatus_bound (hget w hw), unitStatus_struct]
  · subst hs
    rw [if_neg]
    intro hu
    rw [Kind.admits, decide_eq_false_iff_not] at ha
    exact ha (hhead .unit (by rw [hu]; rfl))

end Bind

theorem moves_bind_any {x : TyVar} (hx : c.Free .ty x) (hk : c.kind x = .ANY) (val : Struct Ty) :
    c.Moves (c.bind .ty x val) := by
  refine moves_of_classes (S := fun s => s = x) (q := if val.val = .unit then .unit else .never)
    (fun s hs => hs ▸ hx) (fun w hw => ?_) (fun w hw => ?_) (fun s hs ha => ?_)
  · refine ⟨root_bind .., ?_, kind_bind ..⟩
    rw [get_bind, hx.root, if_neg hw]
  · have hget : (c.bind .ty x val).get .ty w = some val := by
      rw [get_bind, hx.root, if_pos hw]
    rw [unitStatus_bound hget, unitStatus_struct]
  · subst hs
    rw [hk] at ha
    exact absurd ha (by decide)

theorem moves_overlook (p : Prop) : c.Moves (c.overlook p) :=
  moves_of_ty (fun _ => rfl) (fun _ => rfl) (fun _ => rfl)

theorem moves_unite {s : Srt} (hs : s ≠ .ty) (x y : ℕ) : c.Moves (c.unite s x y) := by
  refine moves_of_ty (root_unite_ne hs.symm x y) (get_unite_ne hs.symm x y) fun v => ?_
  show (c.kinds ((c.unite s x y).root .ty v)).1 = _
  rw [root_unite_ne hs.symm]
  rfl

theorem moves_bind {s : Srt} (hs : s ≠ .ty) (r : ℕ) (b : Struct (Term s)) : c.Moves (c.bind s r b) :=
  moves_of_ty (root_bind s r b .ty) (fun v => get_bind_ne hs.symm r v b) (kind_bind s r b)

theorem resolveGrade_bindRoot (s : Srt) (r : ℕ) (t : Term s) (g : Grade) :
    (c.bindRoot s r t).resolveGrade g = c.resolveGrade g := by
  unfold Core.bindRoot
  cases view t <;> rfl

theorem kind_bindBare {r : TyVar} (w v : TyVar) : (c.bindBare .ty r w).kind v =
    if c.root .ty v = c.root .ty r then c.kind w else c.kind v := by
  show (c.kinds ((c.bindBare .ty r w).root .ty v)).1 = _
  rw [root_bindBare]
  split <;> rfl

/-- A root of no kind yet stands for a variable. -/
theorem moves_bindBare {r : TyVar} (hr : c.Free .ty r) (hk : c.kind r = .ANY) (w : TyVar) :
    c.Moves (c.bindBare .ty r w) := by
  refine moves_of_classes (S := fun s => s = r) (q := c.unitStatus (.var w)) (fun s hs => hs ▸ hr)
    (fun v hv => ?_) (fun v hv => ?_) (fun s hs ha => ?_)
  · refine ⟨?_, ?_, ?_⟩
    · rw [root_bindBare, hr.root, if_neg hv]
    · rw [get_bindBare, hr.root, if_neg hv]
    · rw [kind_bindBare, hr.root, if_neg hv]
  · have hget := get_bindBare (c := c) .ty r w v
    have hkind := kind_bindBare (c := c) (r := r) w v
    have hroot := root_bindBare (c := c) .ty r w v
    rw [hr.root, if_pos hv] at hget hkind hroot
    cases hb : c.get .ty w with
    | none => rw [unitStatus_free (hget.trans hb), unitStatus_free hb, hkind, hroot]
    | some b =>
      rw [unitStatus_bound (hget.trans hb), unitStatus_bound hb, unitStatus_struct, unitStatus_struct]
  · subst hs
    rw [hk] at ha
    exact absurd ha (by decide)

theorem moves_bindRoot {s : Srt} {r : ℕ} (hr : c.Free s r) (hk : s = .ty → c.kind r = .ANY)
    (t : Term s) : c.Moves (c.bindRoot s r t) := by
  unfold Core.bindRoot
  refine Moves.trans ?_ (moves_overlook _)
  by_cases hs : s = .ty
  · subst hs
    cases view t with
    | inl w => exact moves_bindBare hr (hk rfl) w
    | inr b => exact moves_bind_any hr (hk rfl) b
  · cases view t with
    | inl w =>
      refine moves_of_ty (root_bindBare_ne (Ne.symm hs) r w) (get_bindBare_ne (Ne.symm hs) r w) fun v => ?_
      show (c.kinds ((c.bindBare s r w).root .ty v)).1 = _
      rw [root_bindBare_ne (Ne.symm hs)]
      rfl
    | inr b => exact moves_bind hs r b

theorem moves_uniteRows (x y : RowVar) : c.Moves (c.uniteRows x y) := by
  have hne : Srt.row ≠ .ty := fun h => by cases h
  unfold Core.uniteRows
  split
  · exact .refl c
  · have hm : c.Moves ((c.setDeep (c.root .row x) false).unite .row x y) :=
      (moves_of_ty (fun _ => rfl) (fun _ => rfl) (fun _ => rfl)).trans (moves_unite hne x y)
    dsimp only
    split
    · exact hm.trans (moves_of_ty (fun _ => rfl) (fun _ => rfl) (fun _ => rfl))
    · exact hm

theorem BindsRow.moves {x : RowVar} {val : Struct Row} (h : c.BindsRow x val c') : c.Moves c' := by
  have hne : Srt.row ≠ .ty := fun h => by cases h
  obtain ⟨c₁, -, hdata, rfl⟩ := h
  have hm : c.Moves c₁ := by
    rcases hdata with ⟨-, rfl⟩ | ⟨-, himp⟩
    · exact .refl _
    · exact himp.moves
  exact hm.trans ((moves_of_ty (fun _ => rfl) (fun _ => rfl) (fun _ => rfl)).trans
    (moves_bind (c := c₁.setDeep x false) hne x val))

theorem moves_fresh (s : Srt) : c.Moves (c.fresh s) := by
  refine moves_of_ty (root_fresh s .ty) (get_fresh s .ty) fun v => ?_
  show (c.kinds ((c.fresh s).root .ty v)).1 = _
  rw [root_fresh]
  rfl

end Core

/-! ## Steps -/

theorem Step.moves {x y : Config} (h : Step x y) : x.core.Moves y.core := by
  have hcomp : Srt.comp ≠ .ty := fun h => by cases h
  cases h with
  | same | hit | aliased | split | payloadFirst | gradeFirst | rowEmpty | rowLabel => exact .refl _
  | uniteTy ha hb hxy hk =>
    exact Core.moves_uniteTys (Core.free_of_resolve _ ha).1 (Core.free_of_resolve _ hb).1 hxy hk
  | uniteComp ha hb => exact Core.moves_unite hcomp _ _
  | uniteRow ha hb => exact Core.moves_uniteRows _ _
  | bindTy hs hb => exact hb.moves hs.free
  | bindComp hs hb =>
    obtain ⟨-, rfl⟩ := hb
    exact (Core.moves_bind hcomp _ _).trans (Core.moves_overlook _)
  | bindRow hs hb => exact hb.moves
  | grade hg =>
    rw [Core.unifyGrade_eq hg]
    exact Core.moves_of_ty (fun _ => rfl) (fun _ => rfl) (fun _ => rfl)
  | rowRewrite => exact Core.moves_fresh .row

/-- Only an equation of grades changes what a grade resolves to. -/
theorem Step.grades {x y : Config} (h : Step x y) : y.core.grades = x.core.grades ∨
    ∃ ga pa gb pb ts, x.tasks = .grade ga pa gb pb :: ts ∧ y.tasks = ts ∧
      x.core.unifyGrade ga gb = some y.core ∧ y.assumed = x.assumed := by
  cases h with
  | grade hg => exact Or.inr ⟨_, _, _, _, _, rfl, rfl, hg, rfl⟩
  | same | hit | aliased | uniteComp | split | payloadFirst | gradeFirst | rowEmpty | rowLabel | rowRewrite =>
    exact Or.inl rfl
  | uniteTy => exact Or.inl (Core.alike_install _ _).grades
  | uniteRow =>
    left
    show (Core.uniteRows _ _ _).grades = _
    unfold Core.uniteRows
    split
    · rfl
    · dsimp only
      split <;> rfl
  | bindTy hs hb =>
    obtain ⟨c₁, -, -, hdata, rfl⟩ := hb
    left
    rcases hdata with ⟨-, rfl⟩ | ⟨-, himp⟩
    · rfl
    · exact himp.alike.grades
  | bindComp hs hb =>
    obtain ⟨-, rfl⟩ := hb
    exact Or.inl rfl
  | bindRow hs hb =>
    obtain ⟨c₁, -, hdata, rfl⟩ := hb
    left
    rcases hdata with ⟨-, rfl⟩ | ⟨-, himp⟩
    · rfl
    · exact himp.alike.grades

end Ral.Typecheck
