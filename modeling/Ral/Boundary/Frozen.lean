import Ral.Boundary.Site
import Ral.Typecheck.Reachable

/-! # What a snapshot shows

Beside the nodes of a build stand the terms they were allocated for. A finished node
draws the head of its term, its numbers the terms below.
-/

namespace Ral.Boundary

open Ral.Typecheck (Ty CompTy Row Term Srt Grade Unifier Unifiable view)
open Run

section

abbrev Terms : Type := List Ral.Typecheck.Node

variable (u : Unifier)

def Shows (T : Terms) (id : ℕ) {s : Srt} (t : Term s) : Prop :=
  ∃ t' : Term s, T[id]? = some ⟨s, t'⟩ ∧ u.resolve t' = u.resolve t

/-- What is left of a row, after the labels before it. -/
inductive Rows (T : Terms) : List (String × ℕ) → Row → Fields → Prop
  | closed {acc : List (String × ℕ)} {r : Row} (head : u.resolve r = .empty) : Rows T acc r ⟨acc, .closed⟩
  | opened {acc : List (String × ℕ)} {r : Row} {v : ℕ} (head : u.resolve r = .var v) :
      Rows T acc r ⟨acc, .open v (u.isDeepRow v) (Build.isWeak u .row v)⟩
  | again {acc : List (String × ℕ)} {r rest : Row} {l : Ral.Typecheck.Label} {t : Ty} {f : Fields}
      (head : u.resolve r = .extend l t rest) (old : (acc.any fun e => e.1 = l.name) = true)
      (more : Rows T acc rest f) : Rows T acc r f
  | first {acc : List (String × ℕ)} {r rest : Row} {l : Ral.Typecheck.Label} {t : Ty} {id : ℕ} {f : Fields}
      (head : u.resolve r = .extend l t rest) (new : (acc.any fun e => e.1 = l.name) = false)
      (shows : Shows u T id t) (more : Rows T (acc ++ [(l.name, id)]) rest f) : Rows T acc r f

/-- The shape of a node whose term has this head. -/
inductive Draws (T : Terms) : Shape → {s : Srt} → Term s → Prop
  | unit : Draws T .unit Term.unit
  | bytes : Draws T .bytes Term.bytes
  | bool : Draws T .bool Term.bool
  | int : Draws T .int Term.int
  | float : Draws T .float Term.float
  | string : Draws T .string Term.string
  | list {id : ℕ} {a : Ty} (elem : Shows u T id a) : Draws T (.list id) (Term.list a)
  | map {id : ℕ} {a : Ty} (elem : Shows u T id a) : Draws T (.map id) (Term.map a)
  | handle {id : ℕ} {a : Ty} {g : Grade} (payload : Shows u T id a) :
      Draws T (.handle (.of (u.resolveGrade g)) id) (Term.handle g a)
  | record {r : Row} {f : Fields} (row : Rows u T [] r f) : Draws T (.record f) (Term.record r)
  | variant {r : Row} {f : Fields} (row : Rows u T [] r f) : Draws T (.variant f) (Term.variant r)
  | thunk {id : ℕ} {c : CompTy} (body : Shows u T id c) : Draws T (.thunk id) (Term.thunk c)
  | free {v : ℕ} : Draws T (.free v (u.kinded v).kind (Build.isWeak u .ty v)) (Term.var v : Ty)
  | ret {id : ℕ} {a : Ty} {g : Grade} (value : Shows u T id a) :
      Draws T (.ret (.of (u.resolveGrade g)) id) (Term.ret g a)
  | func {arg body : ℕ} {a : Ty} {b : CompTy} (ha : Shows u T arg a) (hb : Shows u T body b) :
      Draws T (.func arg body) (Term.func a b)
  | freeComp {v : ℕ} : Draws T (.freeComp (Build.isWeak u .comp v)) (Term.var v : CompTy)

theorem getElem?_of_isPrefix {α : Type} {l l' : List α} (h : l <+: l') {i : ℕ} {a : α} (at' : l[i]? = some a) :
    l'[i]? = some a := by
  obtain ⟨rest, rfl⟩ := h
  rw [List.getElem?_append_left (List.getElem?_eq_some_iff.mp at').1, at']

variable {u} {T T' : Terms}

theorem Shows.mono (grown : T <+: T') {id : ℕ} {s : Srt} {t : Term s} (h : Shows u T id t) : Shows u T' id t := by
  obtain ⟨t', at', same⟩ := h
  exact ⟨t', getElem?_of_isPrefix grown at', same⟩

theorem Rows.mono (grown : T <+: T') {acc : List (String × ℕ)} {r : Row} {f : Fields} (h : Rows u T acc r f) :
    Rows u T' acc r f := by
  induction h with
  | closed head => exact .closed head
  | opened head => exact .opened head
  | again head old more ih => exact .again head old ih
  | first head new shows more ih => exact .first head new (shows.mono grown) ih

theorem Draws.mono (grown : T <+: T') {shape : Shape} {s : Srt} {t : Term s} (h : Draws u T shape t) :
    Draws u T' shape t := by
  cases h with
  | unit => exact .unit
  | bytes => exact .bytes
  | bool => exact .bool
  | int => exact .int
  | float => exact .float
  | string => exact .string
  | list elem => exact .list (elem.mono grown)
  | map elem => exact .map (elem.mono grown)
  | handle payload => exact .handle (payload.mono grown)
  | record row => exact .record (row.mono grown)
  | variant row => exact .variant (row.mono grown)
  | thunk body => exact .thunk (body.mono grown)
  | free => exact .free
  | ret value => exact .ret (value.mono grown)
  | func ha hb => exact .func (ha.mono grown) (hb.mono grown)
  | freeComp => exact .freeComp

/-! ## Builds -/

namespace Build

def marks (b : Build) : Finset (Srt × ℕ) :=
  (b.tys.map fun e => (Srt.ty, e.1)).toFinset ∪ (b.comps.map fun e => (Srt.comp, e.1)).toFinset

theorem mem_marks {b : Build} {s : Srt} {r : ℕ} : (s, r) ∈ b.marks ↔ ∃ id, (r, id) ∈ b.memo s := by
  cases s <;> simp [marks, memo]

theorem known_eq_none {b : Build} {s : Srt} {r : ℕ} : b.known s r = none ↔ (s, r) ∉ b.marks := by
  rw [mem_marks, known, Option.map_eq_none_iff, List.find?_eq_none]
  constructor
  · rintro h ⟨id, mem⟩
    exact h _ mem (by simp)
  · rintro h ⟨r', id⟩ mem eq
    rw [decide_eq_true_eq] at eq
    exact h ⟨id, eq ▸ mem⟩

end Build

/-- Each node has its term, and each root noted its node. -/
structure Ghost (u : Unifier) (b : Build) (T : Terms) : Prop where
  length : T.length = b.nodes.length
  noted : ∀ s r id, (r, id) ∈ b.memo s → ∃ v, T[id]? = some ⟨s, .var v⟩ ∧ u.root s v = r

/-- From one state of a build to a later one: the nodes and marks before stay, and what
is new is finished. -/
structure Grows (u : Unifier) (b : Build) (T : Terms) (b' : Build) (T' : Terms) : Prop where
  ghost : Ghost u b' T'
  terms : T <+: T'
  nodes : b.nodes <+: b'.nodes
  marks : b.marks ⊆ b'.marks
  drawn : ∀ id s (t : Term s), b.nodes.length ≤ id → T'[id]? = some ⟨s, t⟩ →
    ∃ node, b'.nodes[id]? = some node ∧ Draws u T' node.shape (u.resolve t)

namespace Grows

variable {b b' b'' : Build} {T'' : Terms}

theorem refl (ghost : Ghost u b T) : Grows u b T b T := by
  refine ⟨ghost, List.prefix_rfl, List.prefix_rfl, subset_rfl, fun id s t le at' => ?_⟩
  have lt := (List.getElem?_eq_some_iff.mp at').1
  have len := ghost.length
  omega

theorem trans (h : Grows u b T b' T') (h' : Grows u b' T' b'' T'') : Grows u b T b'' T'' := by
  refine ⟨h'.ghost, h.terms.trans h'.terms, h.nodes.trans h'.nodes, h.marks.trans h'.marks, fun id s t le at' => ?_⟩
  by_cases old : id < b'.nodes.length
  · have inT : id < T'.length := by
      rw [h.ghost.length]
      exact old
    have same : T'[id]? = some ⟨s, t⟩ := by
      rw [List.getElem?_eq_getElem inT, ← at']
      exact (getElem?_of_isPrefix h'.terms (List.getElem?_eq_getElem inT)).symm
    obtain ⟨node, found, draws⟩ := h.drawn id s t le same
    exact ⟨node, getElem?_of_isPrefix h'.nodes found, draws.mono h'.terms⟩
  · exact h'.drawn id s t (by omega) at'

end Grows

/-! ## A new node -/

variable {b b' : Build}

def Build.opened (u : Unifier) (b : Build) {s : Srt} (t : Term s) : Build :=
  let b₁ : Build := { b with nodes := b.nodes ++ [.placeholder] }
  match u.rootOf t with
  | some root => b₁.note s root b.nodes.length
  | none => b₁

theorem Build.opened_nodes {s : Srt} (t : Term s) : (b.opened u t).nodes = b.nodes ++ [.placeholder] := by
  unfold opened
  dsimp only
  split
  · cases s <;> rfl
  · rfl

theorem Build.opened_memo {s : Srt} (t : Term s) (s' : Srt) : (b.opened u t).memo s' =
    match u.rootOf t with
    | some root => if s' = s ∧ s ≠ .row then (root, b.nodes.length) :: b.memo s' else b.memo s'
    | none => b.memo s' := by
  unfold opened
  dsimp only
  split
  · cases s <;> cases s' <;> rfl
  · cases s' <;> rfl

theorem rootOf_eq_some {s : Srt} {t : Term s} {r : ℕ} (h : u.rootOf t = some r) : ∃ v, t = .var v ∧ u.root s v = r := by
  unfold Unifier.rootOf at h
  split at h
  · next v eq =>
      cases h
      exact ⟨v, Ral.Typecheck.view_eq_inl.mp eq, rfl⟩
  · cases h

theorem Ghost.opened (ghost : Ghost u b T) {s : Srt} (t : Term s) : Ghost u (b.opened u t) (T ++ [⟨s, t⟩]) := by
  refine ⟨by rw [Build.opened_nodes, List.length_append, List.length_append, ghost.length]; rfl, ?_⟩
  intro s' r id mem
  have old : (r, id) ∈ b.memo s' → ∃ v, (T ++ [⟨s, t⟩])[id]? = some ⟨s', .var v⟩ ∧ u.root s' v = r := by
    intro mem
    obtain ⟨v, at', root⟩ := ghost.noted s' r id mem
    exact ⟨v, getElem?_of_isPrefix (List.prefix_append _ _) at', root⟩
  rw [Build.opened_memo] at mem
  split at mem
  · next root eq =>
      split at mem
      · next same =>
          obtain ⟨rfl, -⟩ := same
          rcases List.mem_cons.mp mem with new | mem
          · cases new
            obtain ⟨v, rfl, root⟩ := rootOf_eq_some eq
            refine ⟨v, ?_, root⟩
            rw [← ghost.length, List.getElem?_concat_length]
          · exact old mem
      · exact old mem
  · exact old mem

theorem Build.marks_opened {s : Srt} (t : Term s) : b.marks ⊆ (b.opened u t).marks := by
  rintro ⟨s', r⟩ mem
  obtain ⟨id, mem⟩ := Build.mem_marks.mp mem
  refine Build.mem_marks.mpr ⟨id, ?_⟩
  rw [Build.opened_memo]
  split
  · split
    · exact List.mem_cons_of_mem _ mem
    · exact mem
  · exact mem

theorem Build.mem_marks_opened {s : Srt} (hs : s ≠ .row) {t : Term s} {r : ℕ} (root : u.rootOf t = some r) :
    (s, r) ∈ (b.opened u t).marks := by
  refine Build.mem_marks.mpr ⟨b.nodes.length, ?_⟩
  rw [Build.opened_memo, root]
  simp [hs]

/-- Once its structure is walked, the node is finished. -/
theorem Grows.closes {s : Srt} {t : Term s} (ghost : Ghost u b T) {node : Node}
    (h : Grows u (b.opened u t) (T ++ [⟨s, t⟩]) b' T') (draws : Draws u T' node.shape (u.resolve t)) :
    Grows u b T { b' with nodes := b'.nodes.set b.nodes.length node } T' ∧ Shows u T' b.nodes.length t := by
  have here : T'[b.nodes.length]? = some ⟨s, t⟩ := by
    apply getElem?_of_isPrefix h.terms
    rw [← ghost.length, List.getElem?_concat_length]
  have nodes : b.nodes ++ [.placeholder] <+: b'.nodes := by
    rw [← Build.opened_nodes (u := u) t]
    exact h.nodes
  have lt : b.nodes.length < b'.nodes.length := by
    have le := nodes.length_le
    rw [List.length_append] at le
    exact le
  refine ⟨⟨⟨?_, h.ghost.noted⟩, (List.prefix_append _ _).trans h.terms, ?_, ?_, ?_⟩, t, here, rfl⟩
  · rw [List.length_set]
    exact h.ghost.length
  · have old : b.nodes <+: b'.nodes := (List.prefix_append _ _).trans nodes
    obtain ⟨rest, eq⟩ := old
    refine ⟨rest.set 0 node, ?_⟩
    show _ = b'.nodes.set b.nodes.length node
    rw [← eq, List.set_append_right _ _ (le_refl _), Nat.sub_self]
  · exact (Build.marks_opened t).trans h.marks
  · intro id s' t' le at'
    by_cases new : id = b.nodes.length
    · subst new
      rw [here] at at'
      cases at'
      exact ⟨node, List.getElem?_set_self lt, draws⟩
    · have later : (b.opened u t).nodes.length ≤ id := by
        rw [Build.opened_nodes, List.length_append]
        show b.nodes.length + 1 ≤ id
        omega
      obtain ⟨node', found, draws'⟩ := h.drawn id s' t' later at'
      exact ⟨node', (List.getElem?_set_ne (Ne.symm new)).trans found, draws'⟩

end

/-! ## A snapshot ends

Over a store without cycles through rows alone every build ends, and what it made
draws the terms it was made for.
-/

open Ral.Typecheck (view_var view_eq_inl view_eq_inr)

variable {u : Unifier} {T : Terms} {b : Build}

/-- Ends without an error in a later state, with a result of which `Q` holds there. -/
def Makes (u : Unifier) {α : Type} (x : ℕ → Building α) (b : Build) (T : Terms) (Q : Terms → α → Prop) : Prop :=
  ∃ a b' T', Returns x b (.ok a) b' ∧ Grows u b T b' T' ∧ Q T' a

namespace Makes

variable {α β : Type} {x y : ℕ → Building α} {Q : Terms → α → Prop} {Q' : Terms → β → Prop}

theorem pure {a : α} (ghost : Ghost u b T) (h : Q T a) : Makes u (fun _ => Pure.pure a) b T Q :=
  ⟨a, b, T, .const rfl, .refl ghost, h⟩

theorem bind {f : ℕ → α → Building β} (hx : Makes u x b T Q)
    (hf : ∀ a b' T', Grows u b T b' T' → Q T' a → Makes u (fun n => f n a) b' T' Q') :
    Makes u (fun n => x n >>= f n) b T Q' := by
  obtain ⟨a, b₁, T₁, hx, grown, hQ⟩ := hx
  obtain ⟨c, b₂, T₂, hf, grown', hQ'⟩ := hf a b₁ T₁ grown hQ
  exact ⟨c, b₂, T₂, hx.bind hf, grown.trans grown', hQ'⟩

theorem map {f : α → β} (hx : Makes u x b T Q) (hf : ∀ T' a, Q T' a → Q' T' (f a)) :
    Makes u (fun n => x n >>= fun a => Pure.pure (f a)) b T Q' :=
  hx.bind fun a _ T' grown h => .pure grown.ghost (hf T' a h)

theorem succ (h : Makes u y b T Q) (hx : ∀ n, x (n + 1) b = y n b) : Makes u x b T Q := by
  obtain ⟨a, b', T', hr, grown, hQ⟩ := h
  exact ⟨a, b', T', hr.succ hx, grown, hQ⟩

end Makes

/-! ## Entering a node -/

theorem enter_makes {s : Srt} {t : Term s} {fill : ℕ → Building Node} (ghost : Ghost u b T)
    (hfill : Makes u fill (b.opened u t) (T ++ [⟨s, t⟩]) fun T' node => Draws u T' node.shape (u.resolve t)) :
    Makes u (fun n => Build.enter u t (fill n)) b T fun T' id => Shows u T' id t := by
  obtain ⟨node, b', T', hr, grown, draws⟩ := hfill
  obtain ⟨closed, shows⟩ := grown.closes ghost draws
  refine ⟨b.nodes.length, { b' with nodes := b'.nodes.set b.nodes.length node }, T', ?_, closed, shows⟩
  have opens : ∀ n, Build.enter u t (fill n) b =
      (fill n >>= fun node => do Build.put b.nodes.length node; Pure.pure b.nodes.length) (b.opened u t) := by
    intro n
    unfold Build.enter Build.opened
    cases u.rootOf t with
    | none => rfl
    | some root => rfl
  have rest : Returns (fun n => fill n >>= fun node => do Build.put b.nodes.length node; Pure.pure b.nodes.length)
      (b.opened u t) (.ok b.nodes.length) { b' with nodes := b'.nodes.set b.nodes.length node } :=
    hr.bind (.const rfl)
  obtain ⟨n, hn⟩ := rest
  exact ⟨n, fun m hm => (opens m).trans (hn m hm)⟩

theorem entered_makes {s : Srt} {t : Term s} {fill : ℕ → Building Node} (ghost : Ghost u b T)
    (hfill : (∀ r, u.rootOf t = some r → (s, r) ∉ b.marks) →
      Makes u fill (b.opened u t) (T ++ [⟨s, t⟩]) fun T' node => Draws u T' node.shape (u.resolve t)) :
    Makes u (fun n => Build.entered u t (fill n)) b T fun T' id => Shows u T' id t := by
  have looks : ∀ n, Build.entered u t (fill n) b = (match (u.rootOf t).bind (b.known s) with
      | some id => Pure.pure id
      | none => Build.enter u t (fill n) : Building ℕ) b := fun n => rfl
  cases found : (u.rootOf t).bind (b.known s) with
  | some id =>
    obtain ⟨root, eq, known⟩ := Option.bind_eq_some_iff.mp found
    obtain ⟨v, rfl, hv⟩ := rootOf_eq_some eq
    obtain ⟨⟨root', id'⟩, mem, rfl⟩ := Option.map_eq_some_iff.mp known
    have eq' : root' = root := by simpa using List.find?_some mem
    obtain ⟨w, at', hw⟩ := ghost.noted s root' id' (List.mem_of_find?_eq_some mem)
    refine ⟨id', b, T, ⟨0, fun m _ => ?_⟩, .refl ghost, .var w, at', ?_⟩
    · show Build.entered u (.var v) (fill m) b = _
      rw [looks, found]
      rfl
    · rw [Unifier.core_resolve, Unifier.core_resolve]
      exact u.core.resolve_of_anchor (hw.trans (eq'.trans hv.symm))
  | none =>
    have fresh : ∀ r, u.rootOf t = some r → (s, r) ∉ b.marks := by
      intro r eq
      rw [eq] at found
      exact Build.known_eq_none.mp found
    obtain ⟨id, b', T', ⟨n, hn⟩, grown, shows⟩ := enter_makes ghost (hfill fresh)
    refine ⟨id, b', T', ⟨n, fun m hm => ?_⟩, grown, shows⟩
    show Build.entered u t (fill m) b = _
    rw [looks, found]
    exact hn m hm

/-! ## Terms -/

def Built (u : Unifier) : Ral.Typecheck.Node → Build → Prop
  | ⟨.ty, t⟩, b => ∀ T, Ghost u b T → Makes u (fun n => Build.ty u n t) b T fun T' id => Shows u T' id t
  | ⟨.comp, t⟩, b => ∀ T, Ghost u b T → Makes u (fun n => Build.comp u n t) b T fun T' id => Shows u T' id t
  | ⟨.row, r⟩, b => ∀ T acc, Ghost u b T → Makes u (fun n => Build.fields u n r acc) b T fun T' f => Rows u T' acc r f

def Below (u : Unifier) {s : Srt} (t : Term s) (b : Build) : Prop :=
  ∀ y ∈ t.children, ∀ b', b.marks ⊆ b'.marks → Built u y b'

theorem tyShape_makes {head : Ty} (below : Below u head b) (ghost : Ghost u b T) :
    Makes u (fun n => Build.tyShape u n head) b T fun T' p => Draws u T' p.1 head := by
  cases head with
  | var v => exact (Makes.pure ghost .free).succ fun _ => rfl
  | unit => exact (Makes.pure ghost .unit).succ fun _ => rfl
  | bytes => exact (Makes.pure ghost .bytes).succ fun _ => rfl
  | bool => exact (Makes.pure ghost .bool).succ fun _ => rfl
  | int => exact (Makes.pure ghost .int).succ fun _ => rfl
  | float => exact (Makes.pure ghost .float).succ fun _ => rfl
  | string => exact (Makes.pure ghost .string).succ fun _ => rfl
  | list a =>
    have ha := below ⟨.ty, a⟩ (List.mem_singleton.mpr rfl) b subset_rfl T ghost
    exact (ha.map fun _ _ h => .list h).succ fun _ => rfl
  | map a =>
    have ha := below ⟨.ty, a⟩ (List.mem_singleton.mpr rfl) b subset_rfl T ghost
    exact (ha.map fun _ _ h => .map h).succ fun _ => rfl
  | handle g a =>
    have ha := below ⟨.ty, a⟩ (List.mem_singleton.mpr rfl) b subset_rfl T ghost
    exact (ha.map fun _ _ h => .handle h).succ fun _ => rfl
  | record r =>
    have hr := below ⟨.row, r⟩ (List.mem_singleton.mpr rfl) b subset_rfl T [] ghost
    exact (hr.map fun _ _ h => .record h).succ fun _ => rfl
  | variant r =>
    have hr := below ⟨.row, r⟩ (List.mem_singleton.mpr rfl) b subset_rfl T [] ghost
    exact (hr.map fun _ _ h => .variant h).succ fun _ => rfl
  | thunk c =>
    have hc := below ⟨.comp, c⟩ (List.mem_singleton.mpr rfl) b subset_rfl T ghost
    exact (hc.map fun _ _ h => .thunk h).succ fun _ => rfl

theorem compShape_makes {head : CompTy} (below : Below u head b) (ghost : Ghost u b T) :
    Makes u (fun n => Build.compShape u n head) b T fun T' shape => Draws u T' shape head := by
  cases head with
  | var v => exact (Makes.pure ghost .freeComp).succ fun _ => rfl
  | ret g a =>
    have ha := below ⟨.ty, a⟩ (List.mem_singleton.mpr rfl) b subset_rfl T ghost
    exact (ha.map fun _ _ h => .ret h).succ fun _ => rfl
  | func a c =>
    have ha := below ⟨.ty, a⟩ (by simp [Term.children]) b subset_rfl T ghost
    refine (ha.bind fun arg b' T' grown harg => ?_).succ fun _ => rfl
    obtain ⟨body, b'', T'', hr, grown', hbody⟩ :=
      below ⟨.comp, c⟩ (by simp [Term.children]) b' grown.marks T' grown.ghost
    exact ⟨_, b'', T'', hr.bind (.const rfl), grown', .func (harg.mono grown'.terms) hbody⟩

theorem ty_makes {t : Ty} (ghost : Ghost u b T)
    (below : (∀ r, u.rootOf t = some r → (Srt.ty, r) ∉ b.marks) → Below u (u.resolve t) (b.opened u t)) :
    Makes u (fun n => Build.ty u n t) b T fun T' id => Shows u T' id t := by
  refine (entered_makes ghost fun fresh => ?_).succ fun _ => rfl
  exact (tyShape_makes (below fresh) (ghost.opened t)).map fun _ _ h => h

theorem comp_makes {t : CompTy} (ghost : Ghost u b T)
    (below : (∀ r, u.rootOf t = some r → (Srt.comp, r) ∉ b.marks) → Below u (u.resolve t) (b.opened u t)) :
    Makes u (fun n => Build.comp u n t) b T fun T' id => Shows u T' id t := by
  refine (entered_makes ghost fun fresh => ?_).succ fun _ => rfl
  exact (compShape_makes (below fresh) (ghost.opened t)).map fun _ _ h => h

/-- A row is built where the terms below its head are. -/
theorem fields_makes {r : Row} {acc : List (String × ℕ)} (ghost : Ghost u b T) (below : Below u (u.resolve r) b) :
    Makes u (fun n => Build.fields u n r acc) b T fun T' f => Rows u T' acc r f := by
  cases head : u.resolve r with
  | empty =>
    refine (Makes.pure ghost (.closed head)).succ fun n => ?_
    rw [Build.fields, head]
  | var v =>
    refine (Makes.pure ghost (.opened head)).succ fun n => ?_
    rw [Build.fields, head]
  | extend l t rest =>
    rw [head] at below
    by_cases old : (acc.any fun e => e.1 = l.name) = true
    · obtain ⟨f, b', T', hr, grown, rows⟩ :=
        below ⟨.row, rest⟩ (by simp [Term.children]) b subset_rfl T acc ghost
      refine Makes.succ ⟨f, b', T', hr, grown, .again head old rows⟩ fun n => ?_
      rw [Build.fields, head]
      simp only [old, if_true]
    · have ht := below ⟨.ty, t⟩ (by simp [Term.children]) b subset_rfl T ghost
      have all : Makes u (fun n => Build.ty u n t >>= fun id => Build.fields u n rest (acc ++ [(l.name, id)])) b T
          fun T' f => Rows u T' acc r f := by
        refine ht.bind fun id b' T' grown shows => ?_
        obtain ⟨f, b'', T'', hr, grown', rows⟩ :=
          below ⟨.row, rest⟩ (by simp [Term.children]) b' grown.marks T' (acc ++ [(l.name, id)]) grown.ghost
        exact ⟨f, b'', T'', hr, grown', .first head ((Bool.not_eq_true _).mp old) (shows.mono grown'.terms) rows⟩
      refine all.succ fun n => ?_
      rw [Build.fields, head]
      simp only [old, if_false, Bool.false_eq_true]

theorem Rows.of_resolve {acc : List (String × ℕ)} {r r' : Row} {f : Fields} (h : Rows u T acc r f)
    (same : u.resolve r' = u.resolve r) : Rows u T acc r' f := by
  cases h with
  | closed head => exact .closed (same.trans head)
  | opened head => exact .opened (same.trans head)
  | again head old more => exact .again (same.trans head) old more
  | first head new shows more => exact .first (same.trans head) new shows more

theorem below_var {s : Srt} (v : ℕ) (b : Build) : Below u (.var v : Term s) b := by
  intro y mem
  simp [Term.children] at mem

theorem built (acyclic : u.core.Acyclic) (x : Ral.Typecheck.Node) (b : Build) : Built u x b := by
  refine acyclic.walk Build.marks (P := Built u) ?_ ?_ ?_ x b
  · rintro ⟨s, t⟩ b headed ih
    have head : u.resolve t = t := by
      rw [Unifier.core_resolve]
      exact Ral.Typecheck.Core.resolve_struct u.core ⟨t, headed⟩
    cases s with
    | ty =>
      intro T ghost
      apply ty_makes ghost
      rw [head]
      exact fun _ y mem b' le => ih y mem b' ((Build.marks_opened t).trans le)
    | comp =>
      intro T ghost
      apply comp_makes ghost
      rw [head]
      exact fun _ y mem b' le => ih y mem b' ((Build.marks_opened t).trans le)
    | row =>
      intro T acc ghost
      apply fields_makes ghost
      rw [head]
      exact ih
  · intro v b ih T acc ghost
    cases bound : u.core.get .row v with
    | none =>
      apply fields_makes ghost
      rw [Unifier.core_resolve, Ral.Typecheck.Core.resolve_free u.core bound]
      exact below_var _ b
    | some val =>
      have head : u.resolve (.var v : Row) = val.val := by
        rw [Unifier.core_resolve, Ral.Typecheck.Core.resolve_bound u.core bound]
      have same : u.resolve val.val = val.val := by
        rw [Unifier.core_resolve, Ral.Typecheck.Core.resolve_struct]
      obtain ⟨f, b', T', ⟨n, hn⟩, grown, rows⟩ := ih val bound b subset_rfl T acc ghost
      refine ⟨f, b', T', ⟨n + 1, fun m hm => ?_⟩, grown, rows.of_resolve (head.trans same.symm)⟩
      obtain ⟨k, rfl⟩ := Nat.exists_eq_add_of_le' (Nat.le_of_add_left_le hm)
      have walk : Build.fields u (k + 1) (.var v) acc = Build.fields u (k + 1) val.val acc := by
        rw [Build.fields, Build.fields, head, same]
      show Build.fields u (k + 1) (.var v) acc b = _
      rw [walk]
      exact hn (k + 1) (by omega)
  · intro s v b hs ih
    have below : (∀ r, u.rootOf (.var v : Term s) = some r → (s, r) ∉ b.marks) →
        Below u (u.resolve (.var v : Term s)) (b.opened u (.var v : Term s)) := by
      intro fresh
      cases bound : u.core.get s v with
      | none =>
        rw [Unifier.core_resolve, Ral.Typecheck.Core.resolve_free u.core bound]
        exact below_var _ _
      | some val =>
        rw [Unifier.core_resolve, Ral.Typecheck.Core.resolve_bound u.core bound]
        have root : u.rootOf (.var v : Term s) = some (u.root s v) := by
          rw [Unifier.rootOf, view_var]
        intro y mem b' le
        refine ih (Ral.Typecheck.Core.anchor_lt bound) (fresh _ root) y b' (Finset.insert_subset ?_ ?_)
        · exact le (Build.mem_marks_opened hs root)
        · exact (Build.marks_opened _).trans le
    cases s with
    | ty => exact fun T ghost => ty_makes ghost below
    | comp => exact fun T ghost => comp_makes ghost below
    | row => exact absurd rfl hs

/-! ## Snapshots -/

/-- The nodes of a site draw terms. -/
structure Frozen (u : Unifier) (site : Site) (T : Terms) : Prop where
  length : T.length = site.nodes.length
  drawn : ∀ id s (t : Term s), T[id]? = some ⟨s, t⟩ → Draws u T (site.node id).shape (u.resolve t)

theorem snapshot_ends (acyclic : u.core.Acyclic) (t : Ty) (unit : UnitId) :
    ∃ site T, (∃ n, ∀ m, n ≤ m → Site.snapshot u m t unit = some site) ∧ site.unit = unit ∧ Frozen u site T ∧
      Shows u T site.root t := by
  have ghost : Ghost u .new [] := ⟨rfl, fun s r id mem => by cases s <;> cases mem⟩
  obtain ⟨root, b, T, ⟨n, hn⟩, grown, shows⟩ := built acyclic ⟨.ty, t⟩ .new [] ghost
  refine ⟨⟨b.nodes, root, unit⟩, T, ⟨n, fun m hm => ?_⟩, rfl, ⟨grown.ghost.length, fun id s t at' => ?_⟩, shows⟩
  · have made : Build.ty u m t .new = some (.ok root, b) := hn m hm
    rw [Site.snapshot, made]
  · obtain ⟨node, found, draws⟩ := grown.drawn id s t (Nat.zero_le _) at'
    have here : Site.node ⟨b.nodes, root, unit⟩ id = node := by
      rw [Site.node, List.getD_eq_getElem?_getD, found]
      rfl
    rwa [here]

end Ral.Boundary
