import Ral.Boundary.Site
import Ral.Typecheck.Totality

/-! # A site instantiated

Each node gets a root of its own, bound to what its shape is; the root of a free node
stands for a fresh variable. Sharing and cycles of the site are those of its type.
-/

namespace Ral.Boundary
open Ral.Typecheck (Ty CompTy Row Term Srt Grade Label TypeErrorKind Unifier Act Core Reachable Unified
  RowVar)

/-- The sort of what a node becomes. -/
def Shape.srt : Shape → Srt
  | .ret _ _ | .func _ _ | .freeComp _ => .comp
  | _ => .ty

/-- Every node with its root. -/
abbrev Minted : Type := List (Node × ℕ)

/-- A unifier, and what the free grades and the open tails have become. -/
structure Thaw where
  u : Unifier
  grades : ℕ → Option Grade
  rows : ℕ → Option RowVar

abbrev Thawing : Type → Type := Run TypeErrorKind Thaw

namespace Thaw

def new (u : Unifier) : Thaw := ⟨u, fun _ => none, fun _ => none⟩

def on {α : Type} (x : Act α) : Thawing α := Run.zoom Thaw.u (fun u thaw => { thaw with u }) x

/-- A root for each node. -/
def mint : List Node → Unifier → Minted × Unifier
  | [], u => ([], u)
  | node :: nodes, u =>
    let (v, u) := u.fresh node.shape.srt
    let (minted, u) := mint nodes u
    ((node, v) :: minted, u)

/-- The root of a node of the sort. -/
def child (minted : Minted) (s : Srt) (id : ℕ) : Option (Term s) :=
  match minted[id]? with
  | some (node, v) => if node.shape.srt = s then some (.var v) else none
  | none => none

/-- No result where there is no such node. -/
def below (minted : Minted) (s : Srt) (id : ℕ) : Thawing (Term s) :=
  Run.lift ((child minted s id).map .ok)

def grade : GradeShape → Thawing Grade
  | .value => pure .value
  | .output => pure .output
  | .free var => do
    let thaw ← Run.get
    match thaw.grades var with
    | some g => pure g
    | none =>
      let g ← on (Run.act fun u => u.freshGrade)
      Run.modify fun thaw => { thaw with grades := Function.update thaw.grades var (some (.var g)) }
      pure (.var g)

def openTail (var : ℕ) (deep : Bool) : Thawing RowVar := do
  let thaw ← Run.get
  match thaw.rows var with
  | some r => pure r
  | none =>
    let r ← on (Run.act fun u => u.freshDeepRowVar deep)
    Run.modify fun thaw => { thaw with rows := Function.update thaw.rows var (some r) }
    pure r

/-- A variable, weak if the frozen one was. -/
def residual {s : Srt} (n : ℕ) (weak : Bool) (t : Term s) : Thawing Unit :=
  if weak then on (Act.markWeak n t .residual) else pure ()

def tail (n : ℕ) : Tail → Thawing Row
  | .closed => pure .empty
  | .open var deep weak => do
    let r ← openTail var deep
    residual n weak (.record (.var r))
    pure (.var r)

def labels (minted : Minted) (label : String → Label) (rest : Row) : List (String × ℕ) → Thawing Row
  | [] => pure rest
  | (name, id) :: more => do
    let row ← labels minted label rest more
    let t ← below minted .ty id
    pure (.extend (label name) t row)

def rowOf (n : ℕ) (minted : Minted) (label : String → Label) (fields : Fields) : Thawing Row := do
  let rest ← tail n fields.tail
  labels minted label rest fields.labels

/-- What the root of a node is bound to. -/
def body (n : ℕ) (minted : Minted) : (shape : Shape) → Thawing (Term shape.srt)
  | .free _ kind weak => do
    let v ← on (Run.act fun u => u.freshKindedVar kind)
    residual n weak (.var v : Ty)
    pure (.var v)
  | .freeComp weak => do
    let v ← on (Run.act fun u => u.fresh .comp)
    residual n weak (.thunk (.var v))
    pure (.var v)
  | .ret g value => do
    let g ← grade g
    let a ← below minted .ty value
    pure (.ret g a)
  | .func arg body => do
    let a ← below minted .ty arg
    let b ← below minted .comp body
    pure (.func a b)
  | .unit => pure .unit
  | .bytes => pure .bytes
  | .bool => pure .bool
  | .int => pure .int
  | .float => pure .float
  | .string => pure .string
  | .list elem => do
    let a ← below minted .ty elem
    pure (.list a)
  | .map elem => do
    let a ← below minted .ty elem
    pure (.map a)
  | .handle g payload => do
    let g ← grade g
    let a ← below minted .ty payload
    pure (.handle g a)
  | .thunk c => do
    let c ← below minted .comp c
    pure (.thunk c)
  | .record fields => do
    let r ← rowOf n minted .field fields
    pure (.record r)
  | .variant fields => do
    let r ← rowOf n minted .case fields
    pure (.variant r)

def bindAll (n : ℕ) (minted : Minted) : Minted → Thawing Unit
  | [] => pure ()
  | (node, root) :: rest => do
    let t ← body n minted node.shape
    Run.modify fun thaw => { thaw with u := thaw.u.bindRoot node.shape.srt root t }
    bindAll n minted rest

/-- The type of the root: a computation is thunked. -/
def top (minted : Minted) (root : ℕ) : Option Ty :=
  match minted[root]? with
  | some (node, v) => some (if node.shape.srt = .comp then .thunk (.var v) else .var v)
  | none => none

end Thaw

/-- Freshen each node, row tail and grade once. -/
def Site.instantiate (n : ℕ) (site : Site) : Act Ty := fun u =>
  let (minted, u) := Thaw.mint site.nodes u
  let all : Thawing Ty := do
    Thaw.bindAll n minted minted
    Run.lift ((Thaw.top minted site.root).map .ok)
  (all (.new u)).map fun r => (r.1, r.2.u)

/-! ## Instantiation is a run -/

namespace Thaw

def roots (minted : Minted) : List (Srt × ℕ) := minted.map fun p => (p.1.shape.srt, p.2)

/-- The minted roots stand for nothing yet. -/
def Waiting (roots : List (Srt × ℕ)) (c : Core) : Prop :=
  ∀ s v, (s, v) ∈ roots → c.Free s v ∧ v < (c.cls s).next

/-- A run of the unifier over which the minted roots still wait. -/
def Saves (roots : List (Srt × ℕ)) (thaw thaw' : Thaw) : Prop :=
  Reachable thaw.u ∧ Waiting roots thaw.u.core → Reachable thaw'.u ∧ Waiting roots thaw'.u.core

instance (roots : List (Srt × ℕ)) : IsPreorder Thaw (Saves roots) where
  refl _ h := h
  trans _ _ _ h h' hw := h' (h hw)

variable {roots : List (Srt × ℕ)} {minted : Minted} {c c' : Core}

theorem Waiting.mono (h : Waiting roots c) (hroot : ∀ s v, (s, v) ∈ roots → c'.root s v = c.root s v)
    (hget : ∀ s v, (s, v) ∈ roots → c'.get s v = c.get s v)
    (hnext : ∀ s, (c.cls s).next ≤ (c'.cls s).next) : Waiting roots c' := by
  intro s v hv
  obtain ⟨hfree, hlt⟩ := h s v hv
  exact ⟨⟨(hroot s v hv).trans hfree.root, (hget s v hv).trans hfree.get⟩, lt_of_lt_of_le hlt (hnext s)⟩

theorem Waiting.of_cls (h : Waiting roots c) (hc : c'.cls = c.cls) : Waiting roots c' := by
  refine h.mono (fun s v _ => ?_) (fun s v _ => ?_) fun s => ?_
  · rw [Core.root, hc, Core.root]
  · rw [Core.get, hc, Core.get]
  · rw [hc]

theorem next_fresh (s s' : Srt) : (c.cls s').next ≤ ((c.fresh s).cls s').next := by
  by_cases h : s' = s
  · subst h
    rw [Core.fresh, Core.cls_setCls_self]
    exact Nat.le_succ _
  · rw [Core.fresh, Core.cls_setCls_ne _ h]

theorem next_bind (s : Srt) (v : ℕ) (b : Ral.Typecheck.Struct (Term s)) (s' : Srt) :
    (c.cls s').next ≤ ((c.bind s v b).cls s').next := by
  by_cases h : s' = s
  · subst h
    rw [Core.bind, Core.cls_setCls_self]
    exact le_max_left ..
  · rw [Core.bind, Core.cls_setCls_ne _ h]

theorem next_bindBare (s : Srt) (a b : ℕ) (s' : Srt) :
    (c.cls s').next ≤ ((c.bindBare s a b).cls s').next := by
  by_cases h : s' = s
  · subst h
    rw [Core.bindBare, Core.cls_setCls_self]
    exact (c.cls s').next_le_mergedNext a b
  · rw [Core.bindBare, Core.cls_setCls_ne _ h]

theorem Waiting.fresh (h : Waiting roots c) (s : Srt) : Waiting roots (c.fresh s) :=
  h.mono (fun _ _ _ => Core.root_fresh ..) (fun _ _ _ => Core.get_fresh ..) (next_fresh s)

/-- What is bound is none of the roots. -/
theorem Waiting.bind (h : Waiting roots c) {s : Srt} {r : ℕ} (b : Ral.Typecheck.Struct (Term s))
    (hr : c.root s r = r) (hn : (s, r) ∉ roots) : Waiting roots (c.bind s r b) := by
  refine h.mono (fun _ _ _ => Core.root_bind ..) (fun s' v hv => ?_) (next_bind s r b)
  by_cases hs : s' = s
  · subst hs
    rw [Core.get_bind, if_neg]
    rw [(h s' v hv).1.root, hr]
    rintro rfl
    exact hn hv
  · exact Core.get_bind_ne hs r v b

theorem Waiting.bindBare (h : Waiting roots c) {s : Srt} {r : ℕ} (hr : c.root s r = r)
    (hn : (s, r) ∉ roots) (w : ℕ) : Waiting roots (c.bindBare s r w) := by
  have haway : ∀ v, (s, v) ∈ roots → ¬ c.root s v = c.root s r := by
    intro v hv
    rw [(h s v hv).1.root, hr]
    rintro rfl
    exact hn hv
  refine h.mono (fun s' v hv => ?_) (fun s' v hv => ?_) (next_bindBare s r w)
  · by_cases hs : s' = s
    · subst hs
      rw [Core.root_bindBare, if_neg (haway v hv)]
    · exact Core.root_bindBare_ne hs r w v
  · by_cases hs : s' = s
    · subst hs
      rw [Core.get_bindBare, if_neg (haway v hv)]
    · exact Core.get_bindBare_ne hs r w v

theorem Waiting.bindRoot (h : Waiting roots c) {s : Srt} {r : ℕ} (hr : c.root s r = r)
    (hn : (s, r) ∉ roots) (t : Term s) : Waiting roots (c.bindRoot s r t) := by
  unfold Core.bindRoot
  cases Ral.Typecheck.view t with
  | inl w => exact (h.bindBare hr hn w).of_cls rfl
  | inr b => exact (h.bind b hr hn).of_cls rfl

theorem Waiting.install (h : Waiting roots c) {v : ℕ} (k : Ral.Typecheck.Kind)
    (hv : c.root .ty v = v) (hn : (Srt.ty, v) ∉ roots) : Waiting roots (c.install v k) := by
  cases hp : k.pin with
  | none =>
    rw [Core.install_open c v k hp]
    exact h.of_cls rfl
  | some t =>
    rw [Core.install_pinned c v hp]
    exact Waiting.bind (c := c.setKind v .any) (h.of_cls rfl) _ hv hn

/-- What is fresh is none of the roots. -/
theorem Waiting.next (h : Waiting roots c) (s : Srt) : (s, (c.cls s).next) ∉ roots :=
  fun hm => absurd (h s _ hm).2 (lt_irrefl _)

/-! ### Each part -/

theorem keeps_on {α : Type} {x : Act α} (h : ∀ u, Reachable u → Waiting roots u.core →
    Run.Sat x u fun _ u' => Reachable u' ∧ Waiting roots u'.core) : Run.Keeps (Saves roots) (on x) := by
  intro thaw
  exact Run.sat_zoom fun r u' hx hw => h thaw.u hw.1 hw.2 r u' hx

theorem keeps_of_u {f : Thaw → Thaw} (h : ∀ thaw, (f thaw).u = thaw.u) :
    Run.Keeps (Saves roots) (Run.modify f : Thawing Unit) := by
  refine Run.keeps_modify fun thaw hw => ?_
  rwa [h]

theorem keeps_below (s : Srt) (id : ℕ) : Run.Keeps (Saves roots) (below minted s id) :=
  fun _ => Run.sat_lift fun _ _ hw => hw

theorem keeps_grade (g : GradeShape) : Run.Keeps (Saves roots) (grade g) := by
  cases g with
  | value => exact Run.keeps_pure _
  | output => exact Run.keeps_pure _
  | free var =>
    refine Run.keeps_bind Run.keeps_get fun thaw => ?_
    cases thaw.grades var with
    | some g => exact Run.keeps_pure g
    | none =>
      refine Run.keeps_bind (keeps_on fun u hu hw => Run.sat_act ⟨.freshGrade hu, hw.of_cls rfl⟩) fun g => ?_
      exact Run.keeps_bind (keeps_of_u fun _ => rfl) fun _ => Run.keeps_pure _

theorem waiting_freshDeepRowVar {u : Unifier} (h : Waiting roots u.core) (d : Bool) :
    Waiting roots (u.freshDeepRowVar d).2.core := by
  have hfresh : Waiting roots (u.fresh .row).2.core := by
    rw [Unifier.core_fresh]
    exact h.fresh .row
  cases d with
  | false => exact hfresh
  | true => exact hfresh.of_cls rfl

theorem waiting_freshKindedVar {u : Unifier} (h : Waiting roots u.core) (k : Ral.Typecheck.Kind) :
    Waiting roots (u.freshKindedVar k).2.core := by
  have hroot : (u.core.fresh .ty).root .ty (u.fresh .ty).1 = (u.fresh .ty).1 :=
    (Core.root_fresh ..).trans ((u.core.cls .ty).above _ (le_refl _)).1
  have hcore : (u.freshKindedVar k).2.core = (u.core.fresh .ty).install (u.fresh .ty).1 k := by
    show ((u.fresh .ty).2.installKind (u.fresh .ty).1 ⟨k, _⟩).core = _
    rw [Unifier.core_installKind _ _ (by rw [Unifier.core_fresh]; exact hroot), Unifier.core_fresh]
  rw [hcore]
  exact (h.fresh .ty).install k hroot (h.next .ty)

theorem keeps_residual {s : Srt} (n : ℕ) (weak : Bool) (t : Term s) :
    Run.Keeps (Saves roots) (residual n weak t) := by
  refine Run.keeps_ite (keeps_on fun u hu hw r u' hx => ?_) (Run.keeps_pure ())
  obtain ⟨rfl, hcore⟩ := Ral.Typecheck.Act.sat_markWeak _ _ hx
  exact ⟨.markWeak hu hx, hcore ▸ hw⟩

theorem keeps_tail (n : ℕ) (t : Tail) : Run.Keeps (Saves roots) (tail n t) := by
  cases t with
  | closed => exact Run.keeps_pure _
  | «open» var deep weak =>
    have hopen : Run.Keeps (Saves roots) (openTail var deep) := by
      refine Run.keeps_bind Run.keeps_get fun thaw => ?_
      cases thaw.rows var with
      | some r => exact Run.keeps_pure r
      | none =>
        refine Run.keeps_bind (keeps_on fun u hu hw => Run.sat_act ?_) fun r => ?_
        · exact ⟨.freshDeepRowVar deep hu, waiting_freshDeepRowVar hw deep⟩
        · exact Run.keeps_bind (keeps_of_u fun _ => rfl) fun _ => Run.keeps_pure _
    exact Run.keeps_bind hopen fun r => Run.keeps_bind (keeps_residual _ _ _) fun _ => Run.keeps_pure _

theorem keeps_labels (label : String → Label) (rest : Row) (ls : List (String × ℕ)) :
    Run.Keeps (Saves roots) (labels minted label rest ls) := by
  induction ls with
  | nil => exact Run.keeps_pure rest
  | cons l ls ih =>
    obtain ⟨name, id⟩ := l
    exact Run.keeps_bind ih fun row => Run.keeps_bind (keeps_below _ _) fun t => Run.keeps_pure _

theorem keeps_body (n : ℕ) (shape : Shape) : Run.Keeps (Saves roots) (body n minted shape) := by
  cases shape with
  | unit | bytes | bool | int | float | string => exact Run.keeps_pure _
  | list | map | thunk => exact Run.keeps_bind (keeps_below _ _) fun _ => Run.keeps_pure _
  | handle g | ret g =>
    exact Run.keeps_bind (keeps_grade g) fun _ => Run.keeps_bind (keeps_below _ _) fun _ => Run.keeps_pure _
  | func =>
    exact Run.keeps_bind (keeps_below _ _) fun _ => Run.keeps_bind (keeps_below _ _) fun _ => Run.keeps_pure _
  | record fields | variant fields =>
    refine Run.keeps_bind (Run.keeps_bind (keeps_tail _ _) fun rest => ?_) fun _ => Run.keeps_pure _
    exact keeps_labels _ _ _
  | free var kind weak =>
    refine Run.keeps_bind (keeps_on fun u hu hw => Run.sat_act ?_) fun v => ?_
    · exact ⟨.freshKindedVar kind hu, waiting_freshKindedVar hw kind⟩
    · exact Run.keeps_bind (keeps_residual _ _ _) fun _ => Run.keeps_pure _
  | freeComp weak =>
    refine Run.keeps_bind (keeps_on fun u hu hw => Run.sat_act ⟨.fresh .comp hu, ?_⟩) fun v => ?_
    · rw [Unifier.core_fresh]
      exact hw.fresh .comp
    · exact Run.keeps_bind (keeps_residual _ _ _) fun _ => Run.keeps_pure _

/-- Each root is bound once, to what waits for none of the others. -/
theorem sat_bindAll (n : ℕ) {rest : Minted} {thaw : Thaw} (hnd : (Thaw.roots rest).Nodup)
    (hu : Reachable thaw.u) (hw : Waiting (Thaw.roots rest) thaw.u.core) :
    Run.Sat (bindAll n minted rest) thaw fun _ thaw' => Reachable thaw'.u := by
  induction rest generalizing thaw with
  | nil => exact Run.sat_pure hu
  | cons p rest ih =>
    obtain ⟨node, r⟩ := p
    rw [Thaw.roots, List.map_cons, List.nodup_cons] at hnd
    have hbody : Run.Keeps (Saves (Thaw.roots ((node, r) :: rest))) (body n minted node.shape) :=
      keeps_body n node.shape
    refine Run.sat_bind ((hbody thaw).mono fun t thaw₁ hsaves => ?_)
    obtain ⟨hu₁, hw₁⟩ := hsaves ⟨hu, hw⟩
    cases t with
    | error e => exact hu₁
    | ok t =>
      have hfree := (hw₁ node.shape.srt r (List.mem_cons_self ..)).1
      have hrow : node.shape.srt ≠ .row := by cases node.shape <;> exact fun h => by cases h
      refine Run.sat_bind (Run.sat_modify (ih hnd.2 (.bindRoot hu₁ hrow hfree) ?_))
      show Waiting _ (thaw₁.u.bindRoot node.shape.srt r t).core
      rw [Unifier.core_bindRoot _ hfree.root]
      have hrest : Waiting (Thaw.roots rest) thaw₁.u.core := fun s v hv => hw₁ s v (List.mem_cons_of_mem _ hv)
      exact hrest.bindRoot hfree.root hnd.1 t

/-- Minting changes nothing but the bounds, and each root is new. -/
structure Mints (u u' : Unifier) (roots : List (Srt × ℕ)) : Prop where
  reachable : Reachable u → Reachable u'
  root : ∀ s v, u'.core.root s v = u.core.root s v
  get : ∀ s v, u'.core.get s v = u.core.get s v
  next : ∀ s, (u.core.cls s).next ≤ (u'.core.cls s).next
  low : ∀ s v, (s, v) ∈ roots → (u.core.cls s).next ≤ v
  high : ∀ s v, (s, v) ∈ roots → v < (u'.core.cls s).next
  nodup : roots.Nodup

theorem mints (nodes : List Node) (u : Unifier) :
    Mints u (mint nodes u).2 (Thaw.roots (mint nodes u).1) := by
  induction nodes generalizing u with
  | nil =>
    refine ⟨id, fun _ _ => rfl, fun _ _ => rfl, fun _ => le_refl _, fun s v h => ?_, fun s v h => ?_,
      List.nodup_nil⟩
    · cases h
    · cases h
  | cons node nodes ih =>
    have h := ih (u.fresh node.shape.srt).2
    have hcore := u.core_fresh node.shape.srt
    have hstep : ∀ s, (u.core.cls s).next ≤ ((u.fresh node.shape.srt).2.core.cls s).next := by
      intro s
      rw [hcore]
      exact next_fresh _ s
    have hnew : (u.core.cls node.shape.srt).next < ((u.fresh node.shape.srt).2.core.cls node.shape.srt).next := by
      rw [hcore, Core.fresh, Core.cls_setCls_self]
      exact Nat.lt_succ_self _
    refine ⟨fun hu => h.reachable (.fresh _ hu), fun s v => ?_, fun s v => ?_,
      fun s => (hstep s).trans (h.next s), fun s v hm => ?_, fun s v hm => ?_, List.nodup_cons.mpr ⟨?_, h.nodup⟩⟩
    · exact (h.root s v).trans (by rw [hcore, Core.root_fresh])
    · exact (h.get s v).trans (by rw [hcore, Core.get_fresh])
    · rcases List.mem_cons.mp hm with he | hm
      · cases he
        exact le_refl _
      · exact (hstep s).trans (h.low s v hm)
    · rcases List.mem_cons.mp hm with he | hm
      · cases he
        exact lt_of_lt_of_le hnew (h.next _)
      · exact h.high s v hm
    · exact fun hm => absurd (h.low _ _ hm) (not_le.mpr hnew)

/-- Every minted root is free. -/
theorem Mints.waiting {u u' : Unifier} (h : Mints u u' roots) : Waiting roots u'.core := by
  intro s v hm
  obtain ⟨hroot, hget⟩ := (u.core.cls s).above v (h.low s v hm)
  exact ⟨⟨(h.root s v).trans hroot, (h.get s v).trans hget⟩, h.high s v hm⟩

end Thaw

/-- A site is instantiated by what a reachable store may undergo. -/
theorem instantiate_reachable {u u' : Unifier} {n : ℕ} {site : Site} {t : Ty} (hu : Reachable u)
    (h : site.instantiate n u = some (.ok t, u')) : Reachable u' := by
  have hm := Thaw.mints site.nodes u
  have hbind : Run.Sat (Thaw.bindAll n (Thaw.mint site.nodes u).1 (Thaw.mint site.nodes u).1)
      (.new (Thaw.mint site.nodes u).2) fun _ thaw => Reachable thaw.u :=
    Thaw.sat_bindAll n hm.nodup (hm.reachable hu) hm.waiting
  obtain ⟨⟨r, thaw⟩, hrun, he⟩ := Option.map_eq_some_iff.mp h
  cases he
  obtain ⟨_, thaw₁, hall, htop⟩ := Run.bind_eq_ok.mp hrun
  obtain ⟨r, -, he⟩ := Option.map_eq_some_iff.mp htop
  cases he
  exact hbind _ _ hall

/-! ## A free node -/

/-- The site of a type that is not solved: one free node. -/
def freeSite : Site := ⟨[⟨.free 0 .ANY false, none⟩], 0, ⟨0, 0⟩⟩

/-- The root of a free node stands for a fresh variable, beside which it keeps a root of
its own: a block that returns the type is not seen to lead back to that variable, and a
cycle closes without data. -/
theorem free_node_closes_cycle : ∃ t u u', freeSite.instantiate 3 Unifier.new = some (.ok t, u) ∧
    Unified t (.thunk (.ret .value t)) u (.ok ()) u' ∧ Reachable u' ∧
    ∃ x l, List.IsChain u'.core.Succ (x :: l ++ [x]) ∧ ∀ y ∈ x :: l, y.2.isData = false := by
  have hrun : (freeSite.instantiate 3 Unifier.new).any (fun r => decide (r.1.toOption = some (.var 0)) &&
      (Unifier.unifyTy 6 (.var 0) (.thunk (.ret .value (.var 0))) r.2).any fun r' =>
        r'.1.isOk && decide (r'.2.resolve (.var 0) = Term.thunk (.ret .value (.var 0)))) = true := by
    decide +kernel
  obtain ⟨⟨r, u⟩, hi, hrun⟩ := (Option.any_eq_true _ _).mp hrun
  rw [Bool.and_eq_true, decide_eq_true_eq] at hrun
  obtain ⟨ht, hrun⟩ := hrun
  obtain ⟨⟨r', u'⟩, hu, hrun⟩ := (Option.any_eq_true _ _).mp hrun
  cases r with
  | error e => cases ht
  | ok t =>
    obtain rfl : t = .var 0 := Option.some.inj ht
    cases r' with
    | error e => cases hrun
    | ok _ =>
      rw [Bool.and_eq_true, decide_eq_true_eq, Unifier.core_resolve] at hrun
      have hget := Core.get_of_resolve u'.core (b := ⟨.thunk (.ret .value (.var 0)), rfl⟩) hrun.2
      refine ⟨_, u, u', hi, .ty hu, .unify (instantiate_reachable .new hi) (.ty hu), ⟨.ty, .var 0⟩,
        [⟨.ty, .thunk (.ret .value (.var 0))⟩, ⟨.comp, .ret .value (.var 0)⟩], ?_, ?_⟩
      · refine .cons_cons (.bound hget) (.cons_cons (.child ?_) (.cons_cons (.child ?_) (.singleton _)))
        · exact List.mem_singleton.mpr rfl
        · exact List.mem_singleton.mpr rfl
      · intro y hy
        simp only [List.mem_cons, List.not_mem_nil, or_false] at hy
        rcases hy with rfl | rfl | rfl <;> rfl

/-- A free node held to a list of itself: nothing was overlooked, the cycle crosses
data, and substitution over it ends. -/
theorem free_node_held_to_list : ∃ t u u', freeSite.instantiate 3 Unifier.new = some (.ok t, u) ∧
    Unified t (.list t) u (.ok ()) u' ∧ ¬ u'.overlooked ∧
    (∃ x l, List.IsChain u'.core.Succ (x :: l ++ [x])) ∧
    (∀ (x : Ral.Typecheck.Node) (l : List Ral.Typecheck.Node), List.IsChain u'.core.Succ (x :: l ++ [x]) →
      ∃ y ∈ x :: l, y.2.isData = true) ∧ ∃ t' n, ∀ m, n ≤ m → u'.applyTy m t = some t' := by
  let v : Unifier := ((Unifier.new.fresh .ty).2.freshKindedVar .ANY).2
  have hi : freeSite.instantiate 3 Unifier.new = some (.ok (.var 0), v.bindRoot .ty 0 (.var 1)) := rfl
  have hplain : ¬ (v.bindRoot .ty 0 (.var 1)).overlooked := by
    rintro (ho | ho)
    · exact ho
    · exact Core.not_meets_free (c := v.core) rfl (by decide) ho
  have hrun : (Unifier.unifyTy 6 (.var 0) (.list (.var 0)) (v.bindRoot .ty 0 (.var 1))).any (fun r =>
      r.1.isOk && decide (r.2.resolve (.var 0) = Term.list (.var 0))) = true := by
    decide +kernel
  obtain ⟨⟨r, u'⟩, hu, hrun⟩ := (Option.any_eq_true _ _).mp hrun
  cases r with
  | error e => cases hrun
  | ok _ =>
    rw [Bool.and_eq_true, decide_eq_true_eq, Unifier.core_resolve] at hrun
    have hget := Core.get_of_resolve u'.core (b := ⟨.list (.var 0), rfl⟩) hrun.2
    have hun : Unified (.var 0) (.list (.var 0)) (v.bindRoot .ty 0 (.var 1)) (.ok ()) u' := .ty hu
    have hlist : (v.bindRoot .ty 0 (.var 1)).core.resolve (.list (.var 0)) =
        (⟨.list (.var 0), rfl⟩ : Ral.Typecheck.Struct Ty).val := rfl
    have ho : ¬ u'.overlooked := fun ho => hplain (hun.overlooked_data rfl hlist rfl ho)
    have hend := Ral.Typecheck.reachable_walks_end (.unify (instantiate_reachable .new hi) hun) ho
    refine ⟨_, _, u', hi, hun, ho, ⟨⟨.ty, .var 0⟩, [⟨.ty, .list (.var 0)⟩], ?_⟩, ?_, ?_⟩
    · exact .cons_cons (.bound hget) (.cons_cons (.child (List.mem_singleton.mpr rfl)) (.singleton _))
    · exact fun x l hl => (hend.1 x l hl).1
    · exact hend.2.2.1 (.var 0)

end Ral.Boundary
