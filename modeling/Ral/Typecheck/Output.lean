import Ral.Typecheck.Grades

/-! # Output is `Unit`

Of the producers in play, those whose grade is output produce `Unit`, and those
that share an open grade have payloads of one status. A run of the machine keeps
both. An equation of grades comes behind the equation of its payloads, or after
their statuses agree.
-/

namespace Ral.Typecheck
open Relation

abbrev Producer : Type := Grade × Ty

def Term.producers : {s : Srt} → Term s → List Producer
  | _, .var _ | _, .unit | _, .bytes | _, .bool | _, .int | _, .float | _, .string | _, .empty => []
  | _, .list a | _, .map a => producers a
  | _, .record r | _, .variant r => producers r
  | _, .thunk b => producers b
  | _, .handle g a | _, .ret g a => (g, a) :: producers a
  | _, .func a b => producers a ++ producers b
  | _, .extend _ t rest => producers t ++ producers rest

namespace Core

/-! ## Producers in play -/

section Play
variable (c : Core) (T : Set Producer)

def InPlay (p : Producer) : Prop := ∃ g, (g, p.2) ∈ T ∧ c.resolveGrade g = c.resolveGrade p.1

def Bears {s : Srt} (t : Term s) : Prop := ∀ p ∈ t.producers, c.InPlay T p

/-- Output is paired with `Unit` alone, and an open grade with payloads of one status. -/
structure WellGraded : Prop where
  output : ∀ p ∈ T, c.resolveGrade p.1 = .output → c.unitStatus p.2 = .unit
  agree : ∀ p ∈ T, ∀ q ∈ T, c.resolveGrade p.1 = c.resolveGrade q.1 →
    c.resolveGrade p.1 ≠ .value → c.unitStatus p.2 = c.unitStatus q.2

def Holds : Prop := ∀ s v b, c.get s v = some b → c.Bears T b.val

end Play

variable {c c' : Core} {T : Set Producer}

theorem Bears.child {x y : Node} (h : c.Bears T x.2) (hy : y ∈ x.2.children) : c.Bears T y.2 := by
  intro p hp
  refine h p ?_
  obtain ⟨s, t⟩ := x
  cases t <;> simp only [Term.children, List.mem_cons, List.not_mem_nil, or_false] at hy
  case func => rcases hy with rfl | rfl <;> simp [Term.producers, hp]
  case extend => rcases hy with rfl | rfl <;> simp [Term.producers, hp]
  all_goals
    subst hy
    simp [Term.producers, hp]

theorem Bears.leaf {s : Srt} {b : Struct (Term s)} (hb : b.val.children = []) :
    c.Bears T b.val := by
  obtain ⟨t, ht⟩ := b
  intro p hp
  cases t <;> simp_all [Term.children, Term.producers]

theorem Bears.resolve (h : c.Holds T) {s : Srt} {t : Term s} (ht : c.Bears T t) :
    c.Bears T (c.resolve t) := by
  cases hv : view t with
  | inr b =>
    obtain rfl := view_eq_inr.mp hv
    rwa [resolve_struct]
  | inl v =>
    obtain rfl := view_eq_inl.mp hv
    rw [fromRoot_term]
    cases hb : c.get s v with
    | none =>
      rw [resolve_free _ hb]
      intro p hp
      simp [Term.producers] at hp
    | some b =>
      rw [resolve_bound _ hb]
      exact h s v b hb

theorem Bears.regrade {t : CompTy} (h : c.Bears T t) : c.Bears T (c.regraded t) := by
  cases t with
  | var v => exact h
  | func a b => exact h
  | ret g a =>
    intro p hp
    rw [regraded, Term.producers, List.mem_cons] at hp
    rcases hp with rfl | hp
    · obtain ⟨g', hg', he⟩ := h (g, a) (by simp [Term.producers])
      exact ⟨g', hg', by rw [he, resolveGrade_resolveGrade]⟩
    · exact h p (by simp [Term.producers, hp])

theorem Bears.mono (hg : ∀ g g', c.resolveGrade g = c.resolveGrade g' →
    c'.resolveGrade g = c'.resolveGrade g') {s : Srt} {t : Term s} (h : c.Bears T t) :
    c'.Bears T t := by
  intro p hp
  obtain ⟨g, hgT, he⟩ := h p hp
  exact ⟨g, hgT, hg _ _ he⟩

theorem InPlay.status (hw : c.WellGraded T) {p q : Producer} (hp : c.InPlay T p)
    (hq : c.InPlay T q) (he : c.resolveGrade p.1 = c.resolveGrade q.1)
    (hv : c.resolveGrade p.1 ≠ .value) : c.unitStatus p.2 = c.unitStatus q.2 := by
  obtain ⟨g, hg, hge⟩ := hp
  obtain ⟨g', hg', hge'⟩ := hq
  exact hw.agree (g, p.2) hg (g', q.2) hg' (hge.trans (he.trans hge'.symm)) (hge.symm ▸ hv)

theorem InPlay.output (hw : c.WellGraded T) {p : Producer} (hp : c.InPlay T p)
    (ho : c.resolveGrade p.1 = .output) : c.unitStatus p.2 = .unit := by
  obtain ⟨g, hg, hge⟩ := hp
  exact hw.output (g, p.2) hg (hge.trans ho)

theorem WellGraded.moves (h : c.WellGraded T) (hm : c.Moves c')
    (hg : ∀ g, c'.resolveGrade g = c.resolveGrade g) : c'.WellGraded T := by
  constructor
  · intro p hp ho
    exact hm.unit (h.output p hp ((hg _).symm.trans ho))
  · intro p hp q hq he hv
    rw [hg, hg] at he
    rw [hg] at hv
    exact hm.eq (h.agree p hp q hq he hv)

/-! ## Tasks -/

/-- The payloads of an equation of grades have one status, unless a grade is value. -/
def Agrees (c : Core) : Task → Prop
  | .eq _ _ => True
  | .grade ga pa gb pb => c.resolveGrade ga = .value ∨ c.resolveGrade gb = .value ∨
      c.unitStatus pa = c.unitStatus pb

def TaskBears (c : Core) (T : Set Producer) : Task → Prop
  | .eq a b => c.Bears T a ∧ c.Bears T b
  | .grade ga pa gb pb => c.InPlay T (ga, pa) ∧ c.InPlay T (gb, pb)

/-- An equation of grades agrees already or stands behind that of its payloads. -/
inductive Pending (c : Core) : List Task → Prop
  | nil : Pending c []
  | cons {t : Task} {ts : List Task} (h : c.Agrees t) (hts : Pending c ts) : Pending c (t :: ts)
  | payload {ga gb : Grade} {pa pb : Ty} {ts : List Task} (hts : Pending c ts) :
      Pending c (.eq pa pb :: .grade ga pa gb pb :: ts)

theorem Pending.append {ts ts' : List Task} (h : c.Pending ts) (h' : c.Pending ts') :
    c.Pending (ts ++ ts') := by
  induction h with
  | nil => exact h'
  | cons ha _ ih => exact .cons ha ih
  | payload _ ih => exact .payload ih

theorem Agrees.mono (hm : c.Moves c') (hg : ∀ g, c.resolveGrade g = .value → c'.resolveGrade g = .value)
    {t : Task} (h : c.Agrees t) : c'.Agrees t := by
  cases t with
  | eq a b => trivial
  | grade ga pa gb pb =>
    rcases h with h | h | h
    · exact Or.inl (hg _ h)
    · exact Or.inr (Or.inl (hg _ h))
    · exact Or.inr (Or.inr (hm.eq h))

theorem Pending.mono (hm : c.Moves c')
    (hg : ∀ g, c.resolveGrade g = .value → c'.resolveGrade g = .value) {ts : List Task}
    (h : c.Pending ts) : c'.Pending ts := by
  induction h with
  | nil => exact .nil
  | cons ha _ ih => exact .cons (ha.mono hm hg) ih
  | payload _ ih => exact .payload ih

theorem Pending.tail {t : Task} {ts : List Task} (h : c.Pending (t :: ts)) (hm : c.Moves c')
    (hg : ∀ g, c.resolveGrade g = .value → c'.resolveGrade g = .value)
    (ht : ∀ a b : Ty, t = .eq a b → c'.unitStatus a = c'.unitStatus b) : c'.Pending ts := by
  cases h with
  | cons _ hts => exact hts.mono hm hg
  | payload hts => exact .cons (Or.inr (Or.inr (ht _ _ rfl))) (hts.mono hm hg)

/-! ## What an equation does -/

theorem unitStatus_key (t : Ty) : c.unitStatus (c.key t) = c.unitStatus t := by
  cases t with
  | var v =>
    show c.unitStatus (.var (c.anchor .ty v)) = _
    rw [← unitStatus_resolve, c.resolve_of_anchor (c.anchor_anchor .ty v), unitStatus_resolve]
  | _ => rfl

theorem unitStatus_split {a b x y : Ty} {new : List Task} (ha : c.resolve a = x)
    (hb : c.resolve b = y) (h : Splits x y new) : c.unitStatus a = c.unitStatus b := by
  unfold unitStatus
  rw [ha, hb]
  cases h <;> rfl

theorem unitStatus_producers {a b x y : Ty} {ga gb : Grade} {pa pb : Ty} (ha : c.resolve a = x)
    (hb : c.resolve b = y) (h : Producers x y ga pa gb pb) : c.unitStatus a = c.unitStatus b := by
  unfold unitStatus
  rw [ha, hb]
  cases h
  rfl

theorem BindsTy.status {a b : Ty} {x : TyVar} {val : Struct Ty} (hb : c.BindsTy x val c')
    (ha : c.resolve a = .var x) (hval : c.resolve b = val.val) :
    c'.unitStatus a = c'.unitStatus b := by
  obtain ⟨hx, w, rfl, hw⟩ := c.free_of_resolve ha
  rw [unitStatus_bound (hb.get hx hw), unitStatus_struct, (hb.moves hx).settled hval]

/-- Neither payload may become `Unit` through a free variable, or a grade is value. -/
theorem status_of_not_payloadFirst {ga gb : Grade} {pa pb : Ty} (h : ¬ c.PayloadFirst ga pa gb pb) :
    c.resolveGrade ga = .value ∨ c.resolveGrade gb = .value ∨ c.unitStatus pa = c.unitStatus pb := by
  by_cases ha : c.resolveGrade ga = .value
  · exact Or.inl ha
  by_cases hb : c.resolveGrade gb = .value
  · exact Or.inr (Or.inl hb)
  right
  right
  have hs : ∀ t : Ty, c.unitVariable t = false →
      c.unitStatus t = if c.admitsUnit (c.resolve t) then .unit else .never := by
    intro t ht
    unfold unitVariable at ht
    unfold unitStatus
    cases hr : c.resolve t with
    | var v =>
      rw [hr, Term.asVar_var] at ht
      have hadm : (c.kind v).admits .unit = false := by simpa [admitsUnit] using ht
      simp [admitsUnit, hadm]
    | _ => rfl
  have hu : (c.unitVariable pa || c.unitVariable pb) = false := by
    by_contra hu
    exact h ⟨ha, hb, Or.inl (Bool.of_not_eq_false hu)⟩
  have he : c.admitsUnit (c.resolve pa) = c.admitsUnit (c.resolve pb) := by
    by_contra he
    exact h ⟨ha, hb, Or.inr he⟩
  rw [Bool.or_eq_false_iff] at hu
  rw [hs pa hu.1, hs pb hu.2, he]

end Core

/-- After a step on an equation of types its sides have one status. -/
theorem Step.equates {x y : Config} (h : Step x y) {a b : Ty} {ts : List Task}
    (hx : x.tasks = .eq a b :: ts)
    (hP : ∀ a b : Ty, x.assumed .ty a b → x.core.unitStatus a = x.core.unitStatus b) :
    y.core.unitStatus a = y.core.unitStatus b := by
  cases h with
  | same hr =>
    cases hx
    rw [← Core.unitStatus_resolve, Core.resolve_of_anchor _ hr, Core.unitStatus_resolve]
  | hit hp =>
    cases hx
    have hk := hP _ _ hp
    rwa [Core.unitStatus_key, Core.unitStatus_key] at hk
  | aliased ha hb =>
    cases hx
    rw [← Core.unitStatus_resolve, ha, ← hb, Core.unitStatus_resolve]
  | uniteTy ha hb hxy hk =>
    cases hx
    obtain ⟨hfx, v, rfl, hv⟩ := Core.free_of_resolve _ ha
    obtain ⟨hfy, w, rfl, hw⟩ := Core.free_of_resolve _ hb
    rw [Core.unitStatus_uniteTys hfx hfy hxy (Or.inl hv),
      Core.unitStatus_uniteTys hfx hfy hxy (Or.inr hw)]
  | bindTy hs hb =>
    cases hx
    rcases hs with ⟨ha, hv⟩ | ⟨ha, hv⟩
    · exact hb.status ha hv
    · exact (hb.status ha hv).symm
  | split ha hb hsp =>
    cases hx
    exact Core.unitStatus_split ha hb hsp
  | payloadFirst ha hb hp =>
    cases hx
    exact Core.unitStatus_producers ha hb hp
  | gradeFirst ha hb hp =>
    cases hx
    exact Core.unitStatus_producers ha hb hp
  | uniteComp | uniteRow | bindComp | bindRow | grade | rowEmpty | rowLabel | rowRewrite => cases hx

namespace Core

variable {c : Core} {T : Set Producer}

/-- Tasks whose producers are in play, every equation of grades guarded. -/
structure Spawns (c : Core) (T : Set Producer) (new : List Task) : Prop where
  bears : ∀ t ∈ new, c.TaskBears T t
  pending : c.Pending new

theorem Spawns.nil : c.Spawns T [] := ⟨fun _ h => (nomatch h), .nil⟩

theorem Spawns.eq {s : Srt} {a b : Term s} {new : List Task} (ha : c.Bears T a) (hb : c.Bears T b)
    (h : c.Spawns T new) : c.Spawns T (.eq a b :: new) := by
  refine ⟨fun t ht => ?_, .cons trivial h.pending⟩
  rcases List.mem_cons.mp ht with rfl | ht
  · exact ⟨ha, hb⟩
  · exact h.bears t ht

theorem spawns_split {s : Srt} {x y : Term s} {new : List Task} (h : Splits x y new)
    (hx : c.Bears T x) (hy : c.Bears T y) : c.Spawns T new := by
  have hchild : ∀ {s s'} {t : Term s} {t' : Term s'}, c.Bears T t → (⟨s', t'⟩ : Node) ∈ t.children →
      c.Bears T t' := fun {s s' t t'} ht hmem => Bears.child (x := ⟨s, t⟩) (y := ⟨s', t'⟩) ht hmem
  cases h with
  | unit | bytes | bool | int | float | string => exact .nil
  | list | map | record | variant | thunk =>
    exact .eq (hchild hx (List.mem_singleton.mpr rfl)) (hchild hy (List.mem_singleton.mpr rfl)) .nil
  | func =>
    refine .eq (hchild hx ?_) (hchild hy ?_) (.eq (hchild hx ?_) (hchild hy ?_) .nil) <;>
      simp [Term.children]

theorem bears_producers {s : Srt} {x y : Term s} {ga gb : Grade} {pa pb : Ty}
    (h : Producers x y ga pa gb pb) (hx : c.Bears T x) (hy : c.Bears T y) :
    c.TaskBears T (.eq pa pb) ∧ c.TaskBears T (.grade (c.resolveGrade ga) pa (c.resolveGrade gb) pb) := by
  have hone : ∀ {s} {t : Term s} {g : Grade} {p : Ty}, t.producers = (g, p) :: p.producers →
      c.Bears T t → c.Bears T p ∧ c.InPlay T (c.resolveGrade g, p) := by
    intro s t g p ht hb
    constructor
    · intro q hq
      exact hb q (by rw [ht]; exact List.mem_cons_of_mem _ hq)
    · obtain ⟨g', hg', he⟩ := hb (g, p) (by rw [ht]; exact List.mem_cons_self ..)
      exact ⟨g', hg', by rw [he, resolveGrade_resolveGrade]⟩
  cases h with
  | handle | ret =>
    obtain ⟨hpa, hga⟩ := hone rfl hx
    obtain ⟨hpb, hgb⟩ := hone rfl hy
    exact ⟨⟨hpa, hpb⟩, hga, hgb⟩

end Core

/-- The tasks that take the place of the first one. -/
theorem Step.spawns {T : Set Producer} {x y : Config} (h : Step x y) {t : Task} {ts : List Task}
    (hx : x.tasks = t :: ts) (hH : x.core.Holds T) (ht : x.core.TaskBears T t) :
    ∃ new, y.tasks = new ++ ts ∧ x.core.Spawns T new := by
  cases h with
  | same | hit | aliased | uniteTy | uniteComp | uniteRow | bindTy | bindComp | bindRow | grade | rowEmpty =>
    cases hx
    exact ⟨[], rfl, Core.Spawns.nil⟩
  | split ha hb hsp =>
    cases hx
    exact ⟨_, rfl, Core.spawns_split hsp (ha ▸ ht.1.resolve hH) (hb ▸ ht.2.resolve hH)⟩
  | payloadFirst ha hb hp hn hpf =>
    cases hx
    obtain ⟨heq, hg⟩ := Core.bears_producers hp (ha ▸ ht.1.resolve hH) (hb ▸ ht.2.resolve hH)
    refine ⟨[_, _], rfl, fun t' ht' => ?_, .payload .nil⟩
    simp only [List.mem_cons, List.not_mem_nil, or_false] at ht'
    rcases ht' with rfl | rfl
    · exact heq
    · exact hg
  | gradeFirst ha hb hp hn hpf =>
    cases hx
    obtain ⟨heq, hg⟩ := Core.bears_producers hp (ha ▸ ht.1.resolve hH) (hb ▸ ht.2.resolve hH)
    refine ⟨[_, _], rfl, fun t' ht' => ?_, .cons ?_ (.cons trivial .nil)⟩
    · simp only [List.mem_cons, List.not_mem_nil, or_false] at ht'
      rcases ht' with rfl | rfl
      · exact hg
      · exact heq
    · rw [Core.Agrees, Core.resolveGrade_resolveGrade, Core.resolveGrade_resolveGrade]
      exact Core.status_of_not_payloadFirst hpf
  | rowLabel ha hb =>
    cases hx
    have hba := ha ▸ ht.1.resolve hH
    have hbb := hb ▸ ht.2.resolve hH
    refine ⟨[_, _], rfl, .eq (fun p hp => hba p ?_) (fun p hp => hbb p ?_)
      (.eq (fun p hp => hba p ?_) (fun p hp => hbb p ?_) .nil)⟩ <;>
      simp [Term.producers, hp]
  | rowRewrite ha hb =>
    cases hx
    have hba := ha ▸ ht.1.resolve hH
    have hbb := hb ▸ ht.2.resolve hH
    -- The fresh tail holds no producer.
    refine ⟨[_, _], rfl, .eq (fun p hp => hba p ?_) (fun p hp => hbb p ?_)
      (.eq (fun p hp => hba p ?_) (fun p hp => hbb p ?_) .nil)⟩ <;>
      simp_all [Term.producers]

/-! ## What a step binds -/

namespace Core

variable {c c' : Core} {T : Set Producer}

def Keeps (c c' : Core) (T : Set Producer) : Prop :=
  ∀ s v b, c'.get s v = some b → c.Bears T b.val

theorem Keeps.grow {s : Srt} {r : ℕ} {b : Struct (Term s)} {c₁ : Core} (h : c.Keeps c₁ T)
    (hg : c₁.Grows c' s r b) (hb : c.Bears T b.val) : c.Keeps c' T := by
  intro s' v b' hb'
  rcases hg s' v b' hb' with hold | ⟨-, he⟩
  · exact h s' v b' hold
  · have hs : s' = s := congrArg Sigma.fst he
    subst hs
    rwa [eq_of_heq (Sigma.mk.inj he).2]

theorem Keeps.mono {c₁ : Core} (h : c.Keeps c₁ T) (hget : ∀ s v b, c'.get s v = some b →
    c₁.get s v = some b) : c.Keeps c' T := fun s v b hb => h s v b (hget s v b hb)

theorem Keeps.install {c₁ : Core} (h : c.Keeps c₁ T) (r : TyVar) (k : Kind) :
    c.Keeps (c₁.install r k) T := by
  cases hp : k.pin with
  | none => exact h.mono fun s w b hb => by simpa [install_open _ _ _ hp] using hb
  | some t =>
    obtain ⟨hd, -, hn⟩ := Kind.pin_eq_some.mp hp
    rw [install_pinned _ _ hp]
    exact (show c.Keeps (c₁.setKind r .any) T from h.mono fun _ _ _ hb => hb).grow (grows_bind .ty r _)
      (Bears.leaf (b := ⟨t, Kind.pin_ne_var hp⟩) (nullary_leaf hn))

theorem Keeps.imposeTys {c₁ : Core} {vs : List TyVar} (h : c.Keeps c₁ T)
    (hi : c₁.imposeTys vs = some c') : c.Keeps c' T := by
  induction vs generalizing c₁ with
  | nil =>
    cases hi
    exact h
  | cons v vs ih =>
    obtain ⟨c₂, h₂, h₃⟩ := Option.bind_eq_some_iff.mp hi
    refine ih ?_ h₃
    obtain ⟨m, -, rfl⟩ := Option.map_eq_some_iff.mp h₂
    split
    · exact h
    · exact h.install _ m

theorem Keeps.uniteRows {c₁ : Core} {x y : RowVar} (h : c.Keeps c₁ T) (hx : c₁.Free .row x)
    (hy : c₁.Free .row y) : c.Keeps (c₁.uniteRows x y) T :=
  h.mono fun s v b hb => by rwa [get_uniteRows hx hy] at hb

theorem Keeps.bindRoot {s : Srt} {r : ℕ} {t : Term s} (h : c.Keeps c T) (hb : c.Bears T t) :
    c.Keeps (c.bindRoot s r t) T := by
  unfold Core.bindRoot
  cases hv : view t with
  | inr b =>
    obtain rfl := view_eq_inr.mp hv
    exact (h.grow (grows_bind s r b) hb).mono fun _ _ _ hb => hb
  | inl w =>
    obtain rfl := view_eq_inl.mp hv
    intro s' v b hv
    by_cases hs : s' = s
    · subst hs
      have hv := (get_bindBare s' r w v).symm.trans hv
      split at hv
      · exact h s' w b hv
      · exact h s' v b hv
    · exact h s' v b ((get_bindBare_ne hs r w v).symm.trans hv)

theorem Imposes.keeps (h : c.Imposes c') (hc : c.Keeps c T) : c.Keeps c' T := by
  obtain ⟨owed, c₁, -, htys, rfl⟩ := h
  exact (hc.imposeTys htys).mono fun s v b hb => by rwa [get_imposeRows] at hb

end Core

theorem Step.keeps {T : Set Producer} {x y : Config} (h : Step x y) (hH : x.core.Holds T)
    (ht : ∀ t ∈ x.tasks, x.core.TaskBears T t) : x.core.Keeps y.core T := by
  have hside : ∀ {s : Srt} {a b : Term s} {ts : List Task} {v : ℕ} {val : Struct (Term s)},
      x.tasks = .eq a b :: ts → x.core.Sides a b v val → x.core.Bears T val.val := by
    intro s a b ts v val hx hs
    have hbears : x.core.TaskBears T (.eq a b) := ht _ (by rw [hx]; exact List.mem_cons_self ..)
    rcases hs with ⟨-, hv⟩ | ⟨-, hv⟩
    · exact hv ▸ hbears.2.resolve hH
    · exact hv ▸ hbears.1.resolve hH
  have hkeep : x.core.Keeps x.core T := hH
  cases h with
  | same | hit | aliased | split | payloadFirst | gradeFirst | rowEmpty | rowLabel => exact hkeep
  | uniteTy ha hb hxy hk =>
    have hx := (Core.free_of_resolve _ ha).1
    have hy := (Core.free_of_resolve _ hb).1
    refine Core.Keeps.install (hkeep.mono fun s v b hb => ?_) _ _
    rwa [Core.get_setKind, Core.get_unite_free hx hy] at hb
  | uniteComp ha hb =>
    have hx := (Core.free_of_resolve _ ha).1
    have hy := (Core.free_of_resolve _ hb).1
    exact hkeep.mono fun s v b hb => by rwa [Core.get_unite_free hx hy] at hb
  | uniteRow ha hb =>
    exact hkeep.uniteRows (Core.free_of_resolve _ ha).1 (Core.free_of_resolve _ hb).1
  | bindTy hs hb =>
    have hval := hside rfl hs
    obtain ⟨c₁, -, -, hdata, rfl⟩ := hb
    refine Core.Keeps.mono (Core.Keeps.grow ?_ (Core.grows_bind .ty _ _) hval) fun _ _ _ hb => hb
    rcases hdata with ⟨-, rfl⟩ | ⟨-, himp⟩
    · exact hkeep.mono fun _ _ _ hb => hb
    · exact (himp.keeps hkeep).mono fun _ _ _ hb => hb
  | bindComp hs hb =>
    obtain ⟨-, rfl⟩ := hb
    exact (hkeep.grow (Core.grows_bind .comp _ _) (hside rfl hs).regrade).mono fun _ _ _ hb => hb
  | bindRow hs hb =>
    have hval := hside rfl hs
    obtain ⟨c₁, -, hdata, rfl⟩ := hb
    refine Core.Keeps.grow ?_ (Core.grows_bind .row _ _) hval
    rcases hdata with ⟨-, rfl⟩ | ⟨-, himp⟩
    · exact hkeep.mono fun _ _ _ hb => hb
    · exact (himp.keeps hkeep).mono fun _ _ _ hb => hb
  | grade hg => exact hkeep.mono fun s v b hb => by rwa [Core.unifyGrade_eq hg] at hb
  | rowRewrite => exact hkeep.mono fun s v b hb => by rwa [Core.get_fresh] at hb

/-! ## Grades unified -/

namespace Core

variable {c c' : Core} {T : Set Producer}

theorem unitStatus_unifyGrade {ga gb : Grade} (h : c.unifyGrade ga gb = some c') (t : Ty) :
    c'.unitStatus t = c.unitStatus t := by
  rw [unifyGrade_eq h]
  rfl

theorem resolveGrade_mono {ga gb : Grade} (h : c.unifyGrade ga gb = some c') {g g' : Grade}
    (he : c.resolveGrade g = c.resolveGrade g') : c'.resolveGrade g = c'.resolveGrade g' := by
  obtain ⟨k, -, -, -, hk⟩ := resolveGrade_unifyGrade h
  rw [hk, hk, he]

theorem resolveGrade_value {ga gb : Grade} (h : c.unifyGrade ga gb = some c') {g : Grade}
    (hg : c.resolveGrade g = .value) : c'.resolveGrade g = .value := by
  obtain ⟨k, -, hka, hkb, hk⟩ := resolveGrade_unifyGrade h
  rw [hk]
  split
  · next he =>
      rcases he with he | he
      · rw [hka (by rw [← he, hg]; rfl), ← he, hg]
      · rw [hkb (by rw [← he, hg]; rfl), ← he, hg]
  · exact hg

/-- Payloads of one status, or a grade that is value, let the grades be one. -/
theorem WellGraded.unifyGrade {ga gb : Grade} {pa pb : Ty} (hw : c.WellGraded T)
    (h : c.unifyGrade ga gb = some c') (hag : c.Agrees (.grade ga pa gb pb))
    (hin : c.TaskBears T (.grade ga pa gb pb)) : c'.WellGraded T := by
  obtain ⟨k, hside, hka, hkb, hk⟩ := resolveGrade_unifyGrade h
  obtain ⟨hina, hinb⟩ := hin
  -- A producer of either class that does not become value has the status of both payloads.
  have hvalue : k ≠ .value → c.resolveGrade ga ≠ .value ∧ c.resolveGrade gb ≠ .value := by
    intro hne
    constructor
    · intro ha
      exact hne ((hka (by rw [ha]; rfl)).trans ha)
    · intro hb
      exact hne ((hkb (by rw [hb]; rfl)).trans hb)
  have hclass : k ≠ .value → ∀ p ∈ T, c.resolveGrade p.1 = c.resolveGrade ga ∨
      c.resolveGrade p.1 = c.resolveGrade gb → c.unitStatus p.2 = c.unitStatus pa := by
    intro hne p hp he
    obtain ⟨hva, hvb⟩ := hvalue hne
    have hpp : c.InPlay T p := ⟨p.1, hp, rfl⟩
    have hab : c.unitStatus pa = c.unitStatus pb := by
      rcases hag with ha | hb | hab
      · exact (hva ha).elim
      · exact (hvb hb).elim
      · exact hab
    rcases he with he | he
    · exact hpp.status hw hina he (he ▸ hva)
    · exact (hpp.status hw hinb he (he ▸ hvb)).trans hab.symm
  constructor
  · intro p hp ho
    rw [unitStatus_unifyGrade h]
    rw [hk] at ho
    split at ho
    · next he =>
        subst ho
        have hne : Grade.output ≠ .value := fun h => by cases h
        have hpa : c.unitStatus pa = .unit := by
          rcases hside with ha | hb
          · exact hina.output hw ha.symm
          · have hu := hinb.output hw hb.symm
            obtain ⟨hva, hvb⟩ := hvalue hne
            rcases hag with ha | hb' | hab
            · exact (hva ha).elim
            · exact (hvb hb').elim
            · exact hab.trans hu
        rw [hclass hne p hp he, hpa]
    · exact hw.output p hp ho
  · intro p hp q hq he hv
    rw [unitStatus_unifyGrade h, unitStatus_unifyGrade h]
    rw [hk p.1, hk q.1] at he
    rw [hk p.1] at hv
    by_cases hcp : c.resolveGrade p.1 = c.resolveGrade ga ∨ c.resolveGrade p.1 = c.resolveGrade gb
    · rw [if_pos hcp] at he hv
      by_cases hcq : c.resolveGrade q.1 = c.resolveGrade ga ∨ c.resolveGrade q.1 = c.resolveGrade gb
      · rw [hclass hv p hp hcp, hclass hv q hq hcq]
      · rw [if_neg hcq] at he
        rw [← he] at hcq
        exact (hcq hside).elim
    · rw [if_neg hcp] at he hv
      by_cases hcq : c.resolveGrade q.1 = c.resolveGrade ga ∨ c.resolveGrade q.1 = c.resolveGrade gb
      · rw [if_pos hcq] at he
        rw [he] at hcp
        exact (hcp hside).elim
      · rw [if_neg hcq] at he
        exact hw.agree p hp q hq he hv

end Core

/-! ## Runs of the machine -/

/-- A configuration in which no equation left can pair output with anything but `Unit`. -/
structure GradedConfig (T : Set Producer) (x : Config) : Prop where
  graded : x.core.WellGraded T
  holds : x.core.Holds T
  tasks : ∀ t ∈ x.tasks, x.core.TaskBears T t
  pending : x.core.Pending x.tasks
  assumed : ∀ a b : Ty, x.assumed .ty a b → x.core.unitStatus a = x.core.unitStatus b

theorem Core.TaskBears.mono {c c' : Core} {T : Set Producer}
    (hg : ∀ g g', c.resolveGrade g = c.resolveGrade g' → c'.resolveGrade g = c'.resolveGrade g')
    {t : Task} (h : c.TaskBears T t) : c'.TaskBears T t := by
  cases t with
  | eq a b => exact ⟨h.1.mono hg, h.2.mono hg⟩
  | grade ga pa gb pb =>
    obtain ⟨⟨g, hgT, he⟩, g', hgT', he'⟩ := h
    exact ⟨⟨g, hgT, hg _ _ he⟩, g', hgT', hg _ _ he'⟩

theorem Step.assumes {x y : Config} (h : Step x y) : y.assumed = x.assumed ∨
    ∃ (s : Srt) (a b : Term s) (ts : List Task), x.tasks = .eq a b :: ts ∧
      y.assumed = x.assumed.add (x.core.key a) (x.core.key b) := by
  cases h with
  | same | hit | uniteRow | bindRow | grade | rowEmpty | rowLabel | rowRewrite => exact Or.inl rfl
  | aliased | uniteTy | uniteComp | bindTy | bindComp | split | payloadFirst | gradeFirst =>
    exact Or.inr ⟨_, _, _, _, rfl, rfl⟩

theorem Step.head {x y : Config} (h : Step x y) : ∃ t ts, x.tasks = t :: ts := by
  cases h <;> exact ⟨_, _, rfl⟩

theorem Step.grades_mono {x y : Config} (h : Step x y) :
    (∀ g g', x.core.resolveGrade g = x.core.resolveGrade g' →
      y.core.resolveGrade g = y.core.resolveGrade g') ∧
    ∀ g, x.core.resolveGrade g = .value → y.core.resolveGrade g = .value := by
  rcases h.grades with hg | ⟨ga, pa, gb, pb, ts, -, -, hg, -⟩
  · have he : ∀ g, y.core.resolveGrade g = x.core.resolveGrade g := by
      intro g
      rw [Core.resolveGrade, hg, Core.resolveGrade]
    exact ⟨fun g g' h => by rw [he, he, h], fun g h => by rw [he, h]⟩
  · exact ⟨fun _ _ => Core.resolveGrade_mono hg, fun _ => Core.resolveGrade_value hg⟩

theorem GradedConfig.step {T : Set Producer} {x y : Config} (h : GradedConfig T x) (hxy : Step x y) :
    GradedConfig T y := by
  have hmoves := hxy.moves
  obtain ⟨hmono, hvalue⟩ := hxy.grades_mono
  obtain ⟨t, ts, hx⟩ := hxy.head
  have htask : x.core.TaskBears T t := h.tasks t (by rw [hx]; exact List.mem_cons_self ..)
  have hpending : x.core.Pending (t :: ts) := hx ▸ h.pending
  obtain ⟨new, hy, hnew⟩ := hxy.spawns hx h.holds htask
  refine ⟨?_, ?_, ?_, ?_, ?_⟩
  · rcases hxy.grades with hg | ⟨ga, pa, gb, pb, ts', hx', -, hg, -⟩
    · refine h.graded.moves hmoves fun g => ?_
      rw [Core.resolveGrade, hg, Core.resolveGrade]
    · rw [hx] at hx'
      cases hx'
      cases hpending with
      | cons hag _ => exact h.graded.unifyGrade hg hag htask
  · intro s v b hb
    exact (hxy.keeps h.holds h.tasks s v b hb).mono hmono
  · intro t' ht'
    rw [hy, List.mem_append] at ht'
    rcases ht' with ht' | ht'
    · exact (hnew.bears t' ht').mono hmono
    · exact (h.tasks t' (by rw [hx]; exact List.mem_cons_of_mem _ ht')).mono hmono
  · rw [hy]
    refine (hnew.pending.mono hmoves hvalue).append (hpending.tail hmoves hvalue fun a b he => ?_)
    exact hxy.equates (he ▸ hx) h.assumed
  · intro a b hab
    rcases hxy.assumes with hp | ⟨s, a', b', ts', hx', hp⟩
    · exact hmoves.eq (h.assumed a b (hp ▸ hab))
    · rw [hp] at hab
      by_cases hs : s = .ty
      · subst hs
        have heq : y.core.unitStatus (x.core.key a') = y.core.unitStatus (x.core.key b') := by
          rw [hmoves.eq (Core.unitStatus_key a'), hmoves.eq (Core.unitStatus_key b')]
          exact hxy.equates hx' h.assumed
        rcases Assumed.add_self.mp hab with hab | ⟨rfl, rfl⟩ | ⟨rfl, rfl⟩
        · exact hmoves.eq (h.assumed a b hab)
        · exact heq
        · exact heq.symm
      · exact hmoves.eq (h.assumed a b ((Assumed.add_ne fun h => hs h.symm).mp hab))

theorem GradedConfig.steps {T : Set Producer} {x y : Config} (h : GradedConfig T x)
    (hxy : Steps x y) : GradedConfig T y := by
  induction hxy with
  | refl => exact h
  | tail _ hyz ih => exact ih.step hyz

/-! ## Runs of the unifier -/

/-- One unification, successful or not, of terms whose producers are in play. -/
theorem Unified.graded {T : Set Producer} {s : Srt} {a b : Term s} {u u' : Unifier}
    {r : Except TypeErrorKind Unit} (h : Unified a b u r u') (hw : u.core.WellGraded T)
    (hH : u.core.Holds T) (ha : u.core.Bears T a) (hb : u.core.Bears T b) :
    u'.core.WellGraded T ∧ u'.core.Holds T := by
  have hstart : GradedConfig T ⟨[.eq a b], u.core, .none⟩ := by
    refine ⟨hw, hH, fun t ht => ?_, .cons trivial .nil, fun _ _ h => h.elim⟩
    cases List.mem_singleton.mp ht
    exact ⟨ha, hb⟩
  cases r with
  | ok _ =>
    obtain ⟨P, hs⟩ := h.steps
    have hend := hstart.steps hs
    exact ⟨hend.graded, hend.holds⟩
  | error e =>
    obtain ⟨ts, c, P, hs, habort⟩ := h.fails
    have hend := hstart.steps hs
    have hgrade : ∀ g, u'.core.resolveGrade g = c.resolveGrade g := by
      intro g
      obtain ⟨pre, -, hpre⟩ := habort
      rw [Core.resolveGrade, (Core.alike_imposeTys hpre).grades, Core.resolveGrade]
    refine ⟨hend.graded.moves habort.moves hgrade, fun s v b hb => ?_⟩
    obtain ⟨pre, -, hpre⟩ := habort
    have hkeep : c.Keeps u'.core T := Core.Keeps.imposeTys hend.holds hpre
    exact (hkeep s v b hb).mono fun g g' he => by rw [hgrade, hgrade, he]

/-- A run from `u` over types whose producers are in play: variables minted and
marked, types unified with success or not, grades defaulted, minted roots bound.
What is minted has no kind yet. -/
inductive GradedRun (T : Set Producer) (u : Unifier) : Unifier → Prop
  | refl : GradedRun T u u
  | fresh {u' : Unifier} (s : Srt) (h : GradedRun T u u') : GradedRun T u (u'.fresh s).2
  | freshGrade {u' : Unifier} (h : GradedRun T u u') : GradedRun T u u'.freshGrade.2
  | freshKindedVar {u' : Unifier} (k : Kind) (h : GradedRun T u u')
      (hk : u'.core.kind (u'.fresh .ty).1 = .ANY) : GradedRun T u (u'.freshKindedVar k).2
  | freshDeepRowVar {u' : Unifier} (d : Bool) (h : GradedRun T u u') :
      GradedRun T u (u'.freshDeepRowVar d).2
  | setSpan {u' : Unifier} (span : Option Span) (h : GradedRun T u u') :
      GradedRun T u { u' with spanAt := span }
  | unify {u' u'' : Unifier} {s : Srt} {a b : Term s} {r : Except TypeErrorKind Unit}
      (h : GradedRun T u u') (ha : u'.core.Bears T a) (hb : u'.core.Bears T b)
      (hu : Unified a b u' r u'') : GradedRun T u u''
  | markWeak {u' u'' : Unifier} {n : ℕ} {s : Srt} {t : Term s} {source : WeakSource}
      (h : GradedRun T u u') (hm : Act.markWeak n t source u' = some (.ok (), u'')) :
      GradedRun T u u''
  | markWeakVar {u' : Unifier} (s : Srt) (v : ℕ) (source : WeakSource) (h : GradedRun T u u') :
      GradedRun T u (u'.markWeakVar s v source)
  | bindGrade {u' : Unifier} {v : GradeVar} (h : GradedRun T u u')
      (hv : u'.core.grades.get v = none) : GradedRun T u (u'.bindGrade v Grade.valueStruct)
  | bindRoot {u' : Unifier} {s : Srt} {r : ℕ} {t : Term s} (h : GradedRun T u u')
      (hb : u'.core.Bears T t) (hr : u'.core.Free s r)
      (hk : s = .ty → u'.core.kind r = .ANY) : GradedRun T u (u'.bindRoot s r t)

theorem Core.graded_of {c c' : Core} {T : Set Producer} (h : c.WellGraded T ∧ c.Holds T)
    (hm : c.Moves c') (hg : ∀ g, c'.resolveGrade g = c.resolveGrade g) (hk : c.Keeps c' T) :
    c'.WellGraded T ∧ c'.Holds T :=
  ⟨h.1.moves hm hg, fun s v b hb => (hk s v b hb).mono fun g g' he => by rw [hg, hg, he]⟩

theorem Core.resolveGrade_value_bind {c : Core} {v : GradeVar} (hv : c.grades.get v = none)
    (g : Grade) : (c.bindGrade v Grade.valueStruct).resolveGrade g =
      if c.resolveGrade g = .var (c.grades.root v) then .value else c.resolveGrade g := by
  show headIn (c.grades.bind v Grade.valueStruct) g = _
  rw [← c.grades.bind_root, headIn_bind _ ((c.grades.get_root v).trans hv) (c.grades.root_root v)]
  rfl

theorem Core.WellGraded.bindGrade {c : Core} {T : Set Producer} (h : c.WellGraded T) {v : GradeVar}
    (hv : c.grades.get v = none) : (c.bindGrade v Grade.valueStruct).WellGraded T := by
  have hother : ∀ g, (c.bindGrade v Grade.valueStruct).resolveGrade g ≠ .value →
      (c.bindGrade v Grade.valueStruct).resolveGrade g = c.resolveGrade g := by
    intro g hg
    rw [resolveGrade_value_bind hv] at hg ⊢
    split at hg
    · exact (hg rfl).elim
    · next hn => rw [if_neg hn]
  constructor
  · intro p hp ho
    have he := hother p.1 (by rw [ho]; exact fun h => by cases h)
    exact h.output p hp (he ▸ ho)
  · intro p hp q hq he hne
    have hp' := hother p.1 hne
    have hq' := hother q.1 (he ▸ hne)
    exact h.agree p hp q hq (by rw [← hp', ← hq', he]) (hp' ▸ hne)

theorem GradedRun.graded {T : Set Producer} {u u' : Unifier} (h : GradedRun T u u')
    (hw : u.core.WellGraded T) (hH : u.core.Holds T) :
    u'.core.WellGraded T ∧ u'.core.Holds T := by
  induction h with
  | refl => exact ⟨hw, hH⟩
  | fresh s _ ih =>
    rw [Unifier.core_fresh]
    exact Core.graded_of ih (Core.moves_fresh s) (fun _ => rfl) fun s' v b hb =>
      ih.2 s' v b (by rwa [Core.get_fresh] at hb)
  | freshGrade _ ih =>
    exact Core.graded_of ih (Core.moves_of_ty (fun _ => rfl) (fun _ => rfl) (fun _ => rfl))
      (fun _ => rfl) ih.2
  | @freshKindedVar u' k _ hk ih =>
    have hfree : (u'.core.fresh .ty).Free .ty (u'.fresh .ty).1 := by
      have habove := (u'.core.cls .ty).above _ (le_refl _)
      exact ⟨(Core.root_fresh ..).trans habove.1, (Core.get_fresh ..).trans habove.2⟩
    have hcore : (u'.freshKindedVar k).2.core =
        (u'.core.fresh .ty).install (u'.fresh .ty).1 k := by
      show ((u'.fresh .ty).2.installKind (u'.fresh .ty).1 ⟨k, _⟩).core = _
      rw [Unifier.core_installKind _ _ (by rw [Unifier.core_fresh]; exact hfree.root),
        Unifier.core_fresh]
    have hkind : (u'.core.fresh .ty).kind (u'.fresh .ty).1 = .ANY := by
      rw [← hk]
      show (u'.core.kinds _).1 = (u'.core.kinds _).1
      rw [Core.root_fresh]
    rw [hcore]
    refine Core.graded_of ih ((Core.moves_fresh .ty).trans (Core.moves_install hfree fun _ => ?_))
      (fun g => ?_) (Core.Keeps.install (fun s' v b hb => ?_) _ k)
    · rw [hkind]
      decide
    · rw [Core.resolveGrade, (Core.alike_install ..).grades]
      rfl
    · exact ih.2 s' v b (by rwa [Core.get_fresh] at hb)
  | @freshDeepRowVar u' d _ ih =>
    have hfresh : (u'.fresh .row).2.core.WellGraded T ∧ (u'.fresh .row).2.core.Holds T := by
      rw [Unifier.core_fresh]
      exact Core.graded_of ih (Core.moves_fresh .row) (fun _ => rfl) fun s' v b hb =>
        ih.2 s' v b (by rwa [Core.get_fresh] at hb)
    cases d with
    | false => exact hfresh
    | true =>
      exact Core.graded_of hfresh
        (Core.moves_of_ty (fun _ => rfl) (fun _ => rfl) (fun _ => rfl)) (fun _ => rfl) hfresh.2
  | setSpan span _ ih => exact ih
  | unify _ ha hb hu ih => exact hu.graded ih.1 ih.2 ha hb
  | markWeak _ hm ih =>
    rw [(Act.sat_markWeak _ _ hm).2]
    exact ih
  | markWeakVar s v source _ ih =>
    rw [Unifier.core_markWeakVar]
    exact ih
  | bindGrade _ hv ih =>
    rw [Unifier.core_bindGrade]
    refine ⟨ih.1.bindGrade hv, fun s v b hb => (ih.2 s v b hb).mono fun g g' he => ?_⟩
    rw [Core.resolveGrade_value_bind hv, Core.resolveGrade_value_bind hv, he]
  | @bindRoot u' s r t _ hb hr hk ih =>
    rw [Unifier.core_bindRoot _ hr.root]
    exact Core.graded_of ih (Core.moves_bindRoot hr hk t) (Core.resolveGrade_bindRoot s r t)
      (Core.Keeps.bindRoot ih.2 hb)

/-- From a store of well graded producers no run reaches one in which a producer
of output produces anything but `Unit`, and every store it reaches is well graded again. -/
theorem output_only_with_unit {T : Set Producer} {u u' : Unifier} (h : GradedRun T u u')
    (hw : u.core.WellGraded T) (hH : u.core.Holds T) :
    (u'.core.WellGraded T ∧ u'.core.Holds T) ∧
    (∀ p ∈ T, u'.core.resolveGrade p.1 = .output → u'.core.resolve p.2 = .unit) ∧
    ∀ s v b, u'.core.get s v = some b → ∀ p ∈ b.val.producers,
      u'.core.resolveGrade p.1 = .output → u'.core.resolve p.2 = .unit := by
  obtain ⟨hw', hH'⟩ := h.graded hw hH
  refine ⟨⟨hw', hH'⟩, fun p hp ho => ?_, fun s v b hb p hp ho => ?_⟩
  · exact Core.unitStatus_eq_unit.mp (hw'.output p hp ho)
  · exact Core.unitStatus_eq_unit.mp ((hH' s v b hb p hp).output hw' ho)

/-- A fresh grade of a `Unit` producer is made output. -/
theorem output_only_with_unit_fresh : ∃ T u', GradedRun T Unifier.new u' ∧
    u'.core.resolveGrade (.var 0) = .output ∧
    ∀ p ∈ T, u'.core.resolveGrade p.1 = .output → u'.core.resolve p.2 = .unit := by
  let T : Set Producer := {p | p.2 = .unit}
  have hunit : Unifier.new.core.unitStatus .unit = .unit := rfl
  have hw : Unifier.new.core.WellGraded T :=
    ⟨fun p (hp : p.2 = .unit) _ => by rw [hp, hunit], fun p (hp : p.2 = .unit) q (hq : q.2 = .unit) _ _ =>
      by rw [hp, hq]⟩
  have hH : Unifier.new.core.Holds T := fun s v b hb => by cases hb
  have hbears : ∀ u : Unifier, ∀ g, u.core.Bears T (.ret g .unit) := fun u g p hp => by
    rw [List.mem_singleton.mp hp]
    exact ⟨g, rfl, rfl⟩
  have hrun : (Unifier.unifyCompTy 5 (.ret (.var 0) .unit) (.ret .output .unit) Unifier.new.freshGrade.2).any
      (fun r => r.1.isOk && decide (r.2.resolveGrade (.var 0) = .output)) = true := by
    decide +kernel
  obtain ⟨⟨r, u⟩, hu, hrun⟩ := (Option.any_eq_true _ _).mp hrun
  cases r with
  | error e => cases hrun
  | ok _ =>
      have hr : GradedRun T Unifier.new u :=
        .unify (.freshGrade .refl) (hbears _ _) (hbears _ _) (.comp hu)
      refine ⟨T, u, hr, ?_, (output_only_with_unit hr hw hH).2.1⟩
      rw [← Unifier.core_resolveGrade]
      exact of_decide_eq_true hrun

/-- The grade of an `Int` producer in the store is made output through a `Unit`
producer that shares it. -/
theorem shared_grade_made_output : ∃ u u', Reachable u ∧
    (∀ s v b, u.core.get s v = some b → ∀ p ∈ b.val.producers,
      u.core.resolveGrade p.1 = .output → u.core.resolve p.2 = .unit) ∧
    Unified (.ret (.var 0) .unit) (.ret .output .unit : CompTy) u (.ok ()) u' ∧
    ∃ b p, u'.core.get .comp 0 = some b ∧ p ∈ b.val.producers ∧
      u'.core.resolveGrade p.1 = .output ∧ u'.core.resolve p.2 = .int := by
  let T : Set Producer := {p | p = (.var 0, .int)}
  have hw : Unifier.new.core.WellGraded T := by
    refine ⟨fun p (hp : p = _) ho => ?_, fun p (hp : p = _) q (hq : q = _) _ _ => by rw [hp, hq]⟩
    subst hp
    cases ho
  have hH : Unifier.new.core.Holds T := fun s v b hb => by cases hb
  have hrun : (Unifier.unifyCompTy 5 (.var 0) (.ret (.var 0) .int) (Unifier.new.fresh .comp).2.freshGrade.2).any
      (fun r => r.1.isOk && (decide (r.2.resolveGrade (.var 0) = .var 0) &&
        (Unifier.unifyCompTy 5 (.ret (.var 0) .unit) (.ret .output .unit) r.2).any fun r' => r'.1.isOk &&
          (decide (r'.2.resolveGrade (.var 0) = .output) &&
            decide (r'.2.resolve (.var 0) = Term.ret (.var 0) .int)))) = true := by
    decide +kernel
  obtain ⟨⟨r, u⟩, hu, hrun⟩ := (Option.any_eq_true _ _).mp hrun
  cases r with
  | error e => cases hrun
  | ok _ =>
      rw [show (Except.ok () : Except TypeErrorKind Unit).isOk = true from rfl, Bool.true_and, Bool.and_eq_true,
        decide_eq_true_eq, Unifier.core_resolveGrade] at hrun
      obtain ⟨hopen, hrun⟩ := hrun
      obtain ⟨⟨r', u'⟩, hu', hrun⟩ := (Option.any_eq_true _ _).mp hrun
      cases r' with
      | error e => cases hrun
      | ok _ =>
          rw [show (Except.ok () : Except TypeErrorKind Unit).isOk = true from rfl, Bool.true_and,
            Bool.and_eq_true, decide_eq_true_eq, decide_eq_true_eq, Unifier.core_resolveGrade,
            Unifier.core_resolve] at hrun
          obtain ⟨hout, hres⟩ := hrun
          have hr : GradedRun T Unifier.new u := by
            refine .unify (.freshGrade (.fresh .comp .refl)) (fun p hp => ?_) (fun p hp => ?_) (.comp hu)
            · simp [Term.producers] at hp
            · rw [List.mem_singleton.mp hp]
              exact ⟨.var 0, rfl, rfl⟩
          have hkeep := (hr.graded hw hH).2
          refine ⟨u, u', .unify (.freshGrade (.fresh .comp .new)) (.comp hu), ?_, .comp hu', ?_⟩
          · intro s v b hb p hp ho
            obtain ⟨g, hg, he⟩ := hkeep s v b hb p hp
            have hgv : g = .var 0 := congrArg Prod.fst (hg : (g, p.2) = (.var 0, .int))
            rw [hgv, hopen, ho] at he
            cases he
          · have hb := Core.get_of_resolve u'.core (b := ⟨.ret (.var 0) .int, rfl⟩) hres
            exact ⟨_, (.var 0, .int), hb, List.mem_cons_self .., hout, rfl⟩

end Ral.Typecheck
