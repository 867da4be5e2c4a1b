import Ral.Boundary.Frozen
import Ral.Boundary.Walks

/-! # Inhabiting a type

The values of a type as a store gives it, with nothing of sites or walks: blocks and
handles are opaque, a row's first occurrence of a label counts, an absent payload is
`unit`. A value fits the site frozen from a type just where it inhabits the type.
-/

namespace Ral.Boundary

open Ral.Typecheck (Ty CompTy Row Term Srt Grade Unifier Kind Label)

variable (u : Unifier)

/-! ## Rows -/

/-- What a row gives a label. -/
inductive Names : Row → String → Ty → Prop
  | here {r rest : Row} {l : Label} {t : Ty} {name : String} (head : u.resolve r = .extend l t rest)
      (same : l.name = name) : Names r name t
  | later {r rest : Row} {l : Label} {t t' : Ty} {name : String} (head : u.resolve r = .extend l t rest)
      (other : l.name ≠ name) (more : Names rest name t') : Names r name t'

/-- How a row ends, at a variable where it is open. -/
inductive Tails : Row → Option ℕ → Prop
  | closed {r : Row} (head : u.resolve r = .empty) : Tails r none
  | opened {r : Row} {v : ℕ} (head : u.resolve r = .var v) : Tails r (some v)
  | later {r rest : Row} {l : Label} {t : Ty} {tail : Option ℕ} (head : u.resolve r = .extend l t rest)
      (more : Tails rest tail) : Tails r tail

variable {u}

theorem Names.unique {r : Row} {name : String} {t t' : Ty} (h : Names u r name t) (h' : Names u r name t') :
    t = t' := by
  induction h with
  | here head same =>
    cases h' with
    | here head' =>
      rw [head] at head'
      cases head'
      rfl
    | later head' other =>
      rw [head] at head'
      cases head'
      exact absurd same other
  | later head other more ih =>
    cases h' with
    | here head' same =>
      rw [head] at head'
      cases head'
      exact absurd same other
    | later head' other' more' =>
      rw [head] at head'
      cases head'
      exact ih more'

theorem Tails.unique {r : Row} {tail tail' : Option ℕ} (h : Tails u r tail) (h' : Tails u r tail') :
    tail = tail' := by
  induction h with
  | closed head =>
    cases h' with
    | closed => rfl
    | opened head' => cases head.symm.trans head'
    | later head' => cases head.symm.trans head'
  | opened head =>
    cases h' with
    | closed head' => cases head.symm.trans head'
    | opened head' =>
      rw [head] at head'
      cases head'
      rfl
    | later head' => cases head.symm.trans head'
  | later head more ih =>
    cases h' with
    | closed head' => cases head.symm.trans head'
    | opened head' => cases head.symm.trans head'
    | later head' more' =>
      rw [head] at head'
      cases head'
      exact ih more'

variable {T : Terms}

theorem Rows.acc_subset {acc : List (String × ℕ)} {r : Row} {f : Fields} (h : Rows u T acc r f) :
    ∀ l ∈ acc, l ∈ f.labels := by
  induction h with
  | closed => exact fun _ mem => mem
  | opened => exact fun _ mem => mem
  | again head old more ih => exact ih
  | first head new shows more ih => exact fun l mem => ih l (List.mem_append_left _ mem)

theorem Rows.named {acc : List (String × ℕ)} {r : Row} {f : Fields} (h : Rows u T acc r f) :
    ∀ l ∈ f.labels, l ∈ acc ∨ (∀ e ∈ acc, e.1 ≠ l.1) ∧ ∃ t, Names u r l.1 t ∧ Shows u T l.2 t := by
  induction h with
  | closed => exact fun _ mem => Or.inl mem
  | opened => exact fun _ mem => Or.inl mem
  | @again acc r rest l t f head old more ih =>
    intro x mem
    rcases ih x mem with before | ⟨new, t', names, shows⟩
    · exact Or.inl before
    · refine Or.inr ⟨new, t', .later head ?_ names, shows⟩
      obtain ⟨e, mem', eq⟩ := List.any_eq_true.mp old
      rw [← of_decide_eq_true eq]
      exact new e mem'
  | @first acc r rest l t id f head new shows more ih =>
    have fresh : ∀ e ∈ acc, e.1 ≠ l.name := by
      intro e mem eq
      have none := List.any_eq_false.mp new e mem
      simp [eq] at none
    intro x mem
    rcases ih x mem with before | ⟨new', t', names, shows'⟩
    · rcases List.mem_append.mp before with before | here
      · exact Or.inl before
      · rw [List.mem_singleton] at here
        subst here
        exact Or.inr ⟨fresh, t, .here head rfl, shows⟩
    · have apart : l.name ≠ x.1 := new' (l.name, id) (by simp)
      exact Or.inr ⟨fun e mem => new' e (List.mem_append_left _ mem), t', .later head apart names, shows'⟩

/-- What the row names is among the labels. -/
theorem Rows.labelled {acc : List (String × ℕ)} {r : Row} {f : Fields} (h : Rows u T acc r f) {name : String}
    {t : Ty} (names : Names u r name t) : ∃ l ∈ f.labels, l.1 = name := by
  induction h with
  | closed head =>
    cases names with
    | here head' => cases head.symm.trans head'
    | later head' => cases head.symm.trans head'
  | opened head =>
    cases names with
    | here head' => cases head.symm.trans head'
    | later head' => cases head.symm.trans head'
  | again head old more ih =>
    cases names with
    | here head' same =>
      rw [head] at head'
      cases head'
      obtain ⟨e, mem, eq⟩ := List.any_eq_true.mp old
      exact ⟨e, more.acc_subset e mem, (of_decide_eq_true eq).trans same⟩
    | later head' other names' =>
      rw [head] at head'
      cases head'
      exact ih names'
  | first head new shows more ih =>
    cases names with
    | here head' same =>
      rw [head] at head'
      cases head'
      exact ⟨_, more.acc_subset _ (List.mem_append_right _ (List.mem_singleton.mpr rfl)), same⟩
    | later head' other names' =>
      rw [head] at head'
      cases head'
      exact ih names'

theorem Rows.tails {acc : List (String × ℕ)} {r : Row} {f : Fields} (h : Rows u T acc r f) :
    (f.tail = .closed ∧ Tails u r none) ∨
      ∃ v, f.tail = .open v (u.isDeepRow v) (Build.isWeak u .row v) ∧ Tails u r (some v) := by
  induction h with
  | closed head => exact Or.inl ⟨rfl, .closed head⟩
  | opened head => exact Or.inr ⟨_, rfl, .opened head⟩
  | again head old more ih | first head new shows more ih =>
    rcases ih with ⟨eq, tails⟩ | ⟨v, eq, tails⟩
    · exact Or.inl ⟨eq, .later head tails⟩
    · exact Or.inr ⟨v, eq, .later head tails⟩

/-- A whole row: its labels show what it names, and its end is the row's. -/
structure Draft (u : Unifier) (T : Terms) (r : Row) (f : Fields) : Prop where
  shown : ∀ l ∈ f.labels, ∃ t, Names u r l.1 t ∧ Shows u T l.2 t
  labelled : ∀ name t, Names u r name t → ∃ l ∈ f.labels, l.1 = name
  tails : (f.tail = .closed ∧ Tails u r none) ∨
    ∃ v, f.tail = .open v (u.isDeepRow v) (Build.isWeak u .row v) ∧ Tails u r (some v)

theorem Rows.draft {r : Row} {f : Fields} (h : Rows u T [] r f) : Draft u T r f := by
  refine ⟨fun l mem => ?_, fun name t names => h.labelled names, h.tails⟩
  rcases h.named l mem with none | ⟨-, found⟩
  · cases none
  · exact found

namespace Draft

variable {r : Row} {f : Fields}

theorem shows (h : Draft u T r f) {l : String × ℕ} (mem : l ∈ f.labels) {t : Ty} (names : Names u r l.1 t) :
    Shows u T l.2 t := by
  obtain ⟨t', names', shows⟩ := h.shown l mem
  rwa [names.unique names']

theorem unnamed (h : Draft u T r f) {name : String} :
    name ∉ f.labels.map Prod.fst ↔ ∀ t, ¬ Names u r name t := by
  constructor
  · intro out t names
    obtain ⟨l, mem, eq⟩ := h.labelled name t names
    exact out (List.mem_map.mpr ⟨l, mem, eq⟩)
  · intro none mem
    obtain ⟨l, mem', rfl⟩ := List.mem_map.mp mem
    obtain ⟨t, names, -⟩ := h.shown l mem'
    exact none t names

theorem find_eq_none (h : Draft u T r f) {name : String} :
    f.labels.find? (fun l => l.1 = name) = none ↔ ∀ t, ¬ Names u r name t := by
  rw [← h.unnamed, List.find?_eq_none]
  simp only [List.mem_map, decide_eq_true_eq, not_exists, not_and]

theorem find_shows (h : Draft u T r f) {name : String} {l : String × ℕ}
    (found : f.labels.find? (fun l => l.1 = name) = some l) {t : Ty} (names : Names u r name t) : Shows u T l.2 t := by
  have eq : l.1 = name := by simpa using List.find?_some found
  subst eq
  exact h.shows (List.mem_of_find?_eq_some found) names

theorem find_names (h : Draft u T r f) {name : String} {l : String × ℕ}
    (found : f.labels.find? (fun l => l.1 = name) = some l) : ∃ t, Names u r name t ∧ Shows u T l.2 t := by
  have eq : l.1 = name := by simpa using List.find?_some found
  subst eq
  exact h.shown l (List.mem_of_find?_eq_some found)

theorem open_of_tails (h : Draft u T r f) {v : ℕ} (tails : Tails u r (some v)) :
    f.tail = .open v (u.isDeepRow v) (Build.isWeak u .row v) := by
  rcases h.tails with ⟨-, closed⟩ | ⟨w, eq, tails'⟩
  · cases closed.unique tails
  · cases tails'.unique tails
    exact eq

theorem tails_of_open (h : Draft u T r f) {v : ℕ} {deep weak : Bool} (eq : f.tail = .open v deep weak) :
    Tails u r (some v) ∧ u.isDeepRow v = deep := by
  rcases h.tails with ⟨closed, -⟩ | ⟨w, eq', tails⟩
  · rw [closed] at eq
    cases eq
  · rw [eq'] at eq
    cases eq
    exact ⟨tails, rfl⟩

end Draft

/-! ## Values -/

variable (u)

/-- The values of a type; a free variable's are those whose head its kind admits and
which are data throughout when the kind is deep. -/
inductive Inhabits : Ty → Value → Prop
  | unit {t : Ty} (head : u.resolve t = .unit) : Inhabits t .unit
  | bool {t : Ty} (head : u.resolve t = .bool) (b : Bool) : Inhabits t (.bool b)
  | int {t : Ty} (head : u.resolve t = .int) (n : Ral.Data.I64) : Inhabits t (.int n)
  | float {t : Ty} (head : u.resolve t = .float) (f : Ral.Data.Finite) : Inhabits t (.float f)
  | string {t : Ty} (head : u.resolve t = .string) (s : String) : Inhabits t (.string s)
  | bytes {t : Ty} (head : u.resolve t = .bytes) (bs : List UInt8) : Inhabits t (.bytes bs)
  | handle {t a : Ty} {g : Grade} (head : u.resolve t = .handle g a) : Inhabits t .handle
  | thunk {t : Ty} {c : CompTy} (head : u.resolve t = .thunk c) (lambda : Bool) : Inhabits t (.thunk lambda)
  | native {t : Ty} {c : CompTy} (head : u.resolve t = .thunk c) : Inhabits t .native
  | list {t a : Ty} {items : List Value} (head : u.resolve t = .list a) (each : ∀ v ∈ items, Inhabits a v) :
      Inhabits t (.list items)
  | map {t a : Ty} {entries : List (String × Value)} (head : u.resolve t = .map a)
      (each : ∀ e ∈ entries, Inhabits a e.2) : Inhabits t (.map entries)
  | record {t : Ty} {r : Row} {entries : List (String × Value)} (head : u.resolve t = .record r)
      (named : ∀ name a, Names u r name a → ∃ v, Value.entry name entries = some v)
      (each : ∀ name a, Names u r name a → ∀ v, Value.entry name entries = some v → Inhabits a v)
      (further : ∀ e ∈ entries, (∀ a, ¬ Names u r e.1 a) →
        ∃ var, Tails u r (some var) ∧ (u.isDeepRow var = true → e.2.isData = true)) : Inhabits t (.map entries)
  | known {t a : Ty} {r : Row} {label : String} {payload : Option Value} (head : u.resolve t = .variant r)
      (named : Names u r label a) (carried : Inhabits a (payload.getD .unit)) : Inhabits t (.variant label payload)
  | other {t : Ty} {r : Row} {var : ℕ} {label : String} {payload : Option Value} (head : u.resolve t = .variant r)
      (unnamed : ∀ a, ¬ Names u r label a) (tail : Tails u r (some var))
      (data : u.isDeepRow var = true → (payload.getD .unit).isData = true) : Inhabits t (.variant label payload)
  | free {t : Ty} {var : ℕ} {v : Value} (head : u.resolve t = .var var)
      (admitted : ∃ h ∈ v.heads, (u.kinded var).kind.admits h = true)
      (data : (u.kinded var).kind.deep = true → v.isData = true) : Inhabits t v

/-- The position below a value of a type, with its own type. -/
inductive Position : Ty → Value → Ty → Value → Prop
  | here (t : Ty) (v : Value) : Position t v t v
  | elem {t a t' : Ty} {items : List Value} {v v' : Value} (head : u.resolve t = .list a) (mem : v ∈ items)
      (rest : Position a v t' v') : Position t (.list items) t' v'
  | entry {t a t' : Ty} {entries : List (String × Value)} {e : String × Value} {v' : Value}
      (head : u.resolve t = .map a) (mem : e ∈ entries) (rest : Position a e.2 t' v') :
      Position t (.map entries) t' v'
  | field {t a t' : Ty} {r : Row} {entries : List (String × Value)} {name : String} {v v' : Value}
      (head : u.resolve t = .record r) (named : Names u r name a) (found : Value.entry name entries = some v)
      (rest : Position a v t' v') : Position t (.map entries) t' v'
  | payload {t a t' : Ty} {r : Row} {label : String} {payload : Option Value} {v' : Value}
      (head : u.resolve t = .variant r) (named : Names u r label a)
      (rest : Position a (payload.getD .unit) t' v') : Position t (.variant label payload) t' v'

def Compares (t : Ty) (v : Value) (var : ℕ) (side : Side) : Prop :=
  ∃ t' v', Position u t v t' v' ∧ u.resolve t' = .var var ∧ (u.kinded var).kind = .COMPARABLE ∧
    Build.isWeak u .ty var = true ∧ v'.side = some side

/-! ## A frozen type -/

variable {u} {site : Site}

namespace Frozen

theorem draws (frozen : Frozen u site T) {id : ℕ} {s : Srt} {t : Term s} (h : Shows u T id t) :
    Draws u T (site.node id).shape (u.resolve t) := by
  obtain ⟨t', at', same⟩ := h
  rw [← same]
  exact frozen.drawn id s t' at'

theorem of_shape (frozen : Frozen u site T) {id : ℕ} {s : Srt} {t : Term s} (h : Shows u T id t) {shape : Shape}
    (eq : (site.node id).shape = shape) : ∃ head, u.resolve t = head ∧ Draws u T shape head :=
  ⟨_, rfl, eq ▸ frozen.draws h⟩

theorem of_head (frozen : Frozen u site T) {id : ℕ} {s : Srt} {t head : Term s} (h : Shows u T id t)
    (eq : u.resolve t = head) : ∃ shape, (site.node id).shape = shape ∧ Draws u T shape head :=
  ⟨_, rfl, eq ▸ frozen.draws h⟩

end Frozen

theorem inhabits_of_fits (frozen : Frozen u site T) {id : ℕ} {v : Value} (h : Fits site id v) {t : Ty}
    (shows : Shows u T id t) : Inhabits u t v := by
  induction h generalizing t with
  | unit shape | bool shape | int shape | float shape | string shape | bytes shape =>
    obtain ⟨r, head, d⟩ := frozen.of_shape shows shape
    cases d
    constructor
    exact head
  | handle shape | thunk shape | native shape =>
    obtain ⟨r, head, d⟩ := frozen.of_shape shows shape
    cases d
    constructor
    exact head
  | list shape each ih =>
    obtain ⟨r, head, d⟩ := frozen.of_shape shows shape
    cases d with
    | list elem => exact .list head fun v mem => ih v mem elem
  | map shape each ih =>
    obtain ⟨r, head, d⟩ := frozen.of_shape shows shape
    cases d with
    | map elem => exact .map head fun e mem => ih e mem elem
  | record shape named each further ih =>
    obtain ⟨r, head, d⟩ := frozen.of_shape shows shape
    cases d with
    | record row =>
      have draft := row.draft
      refine .record head (fun name a names => ?_) (fun name a names v found => ?_) fun e mem unnamed => ?_
      · obtain ⟨l, mem, rfl⟩ := draft.labelled name a names
        exact named l mem
      · obtain ⟨l, mem, rfl⟩ := draft.labelled name a names
        exact ih l mem v found (draft.shows mem names)
      · obtain ⟨var, deep, weak, tail, data⟩ := further e mem (draft.unnamed.mpr unnamed)
        obtain ⟨tails, rfl⟩ := draft.tails_of_open tail
        exact ⟨var, tails, data⟩
  | known shape named carried ih =>
    obtain ⟨r, head, d⟩ := frozen.of_shape shows shape
    cases d with
    | variant row =>
      obtain ⟨a, names, shows'⟩ := row.draft.find_names named
      exact .known head names (ih shows')
  | other shape unnamed tail data =>
    obtain ⟨r, head, d⟩ := frozen.of_shape shows shape
    cases d with
    | variant row =>
      obtain ⟨tails, rfl⟩ := row.draft.tails_of_open tail
      exact .other head (row.draft.find_eq_none.mp unnamed) tails data
  | free shape admitted data =>
    obtain ⟨r, head, d⟩ := frozen.of_shape shows shape
    cases d
    exact .free head admitted data

theorem fits_of_inhabits (frozen : Frozen u site T) {t : Ty} {v : Value} (h : Inhabits u t v) {id : ℕ}
    (shows : Shows u T id t) : Fits site id v := by
  induction h generalizing id with
  | unit head | bool head | int head | float head | string head | bytes head =>
    obtain ⟨sh, shape, d⟩ := frozen.of_head shows head
    cases d
    constructor
    exact shape
  | handle head | thunk head | native head =>
    obtain ⟨sh, shape, d⟩ := frozen.of_head shows head
    cases d
    constructor
    exact shape
  | list head each ih =>
    obtain ⟨sh, shape, d⟩ := frozen.of_head shows head
    cases d with
    | list elem => exact .list shape fun v mem => ih v mem elem
  | map head each ih =>
    obtain ⟨sh, shape, d⟩ := frozen.of_head shows head
    cases d with
    | map elem => exact .map shape fun e mem => ih e mem elem
  | record head named each further ih =>
    obtain ⟨sh, shape, d⟩ := frozen.of_head shows head
    cases d with
    | record row =>
      have draft := row.draft
      refine .record shape (fun l mem => ?_) (fun l mem v found => ?_) fun e mem unnamed => ?_
      · obtain ⟨a, names, -⟩ := draft.shown l mem
        exact named l.1 a names
      · obtain ⟨a, names, shows'⟩ := draft.shown l mem
        exact ih l.1 a names v found shows'
      · obtain ⟨var, tails, data⟩ := further e mem (draft.unnamed.mp unnamed)
        exact ⟨var, _, _, draft.open_of_tails tails, data⟩
  | @known t a r label payload head named carried ih =>
    obtain ⟨sh, shape, d⟩ := frozen.of_head shows head
    cases d with
    | @variant _ f row =>
      cases found : f.labels.find? fun l => l.1 = label with
      | none => exact absurd named (row.draft.find_eq_none.mp found _)
      | some l => exact .known shape found (ih (row.draft.find_shows found named))
  | other head unnamed tail data =>
    obtain ⟨sh, shape, d⟩ := frozen.of_head shows head
    cases d with
    | variant row =>
      exact .other shape (row.draft.find_eq_none.mpr unnamed) (row.draft.open_of_tails tail) data
  | free head admitted data =>
    obtain ⟨sh, shape, d⟩ := frozen.of_head shows head
    cases d
    exact .free shape admitted data

theorem position_of_at (frozen : Frozen u site T) {id id' : ℕ} {v v' : Value} (h : At site id v id' v') {t : Ty}
    (shows : Shows u T id t) : ∃ t', Position u t v t' v' ∧ Shows u T id' t' := by
  induction h generalizing t with
  | here => exact ⟨t, .here t _, shows⟩
  | elem shape mem rest ih =>
    obtain ⟨r, head, d⟩ := frozen.of_shape shows shape
    cases d with
    | list elem =>
      obtain ⟨t', position, shows'⟩ := ih elem
      exact ⟨t', .elem head mem position, shows'⟩
  | entry shape mem rest ih =>
    obtain ⟨r, head, d⟩ := frozen.of_shape shows shape
    cases d with
    | map elem =>
      obtain ⟨t', position, shows'⟩ := ih elem
      exact ⟨t', .entry head mem position, shows'⟩
  | field shape mem found rest ih =>
    obtain ⟨r, head, d⟩ := frozen.of_shape shows shape
    cases d with
    | record row =>
      obtain ⟨a, names, shows'⟩ := row.draft.shown _ mem
      obtain ⟨t', position, shows'⟩ := ih shows'
      exact ⟨t', .field head names found position, shows'⟩
  | payload shape named rest ih =>
    obtain ⟨r, head, d⟩ := frozen.of_shape shows shape
    cases d with
    | variant row =>
      obtain ⟨a, names, shows'⟩ := row.draft.find_names named
      obtain ⟨t', position, shows'⟩ := ih shows'
      exact ⟨t', .payload head names position, shows'⟩

theorem at_of_position (frozen : Frozen u site T) {t t' : Ty} {v v' : Value} (h : Position u t v t' v') {id : ℕ}
    (shows : Shows u T id t) : ∃ id', At site id v id' v' ∧ Shows u T id' t' := by
  induction h generalizing id with
  | here => exact ⟨id, .here id _, shows⟩
  | elem head mem rest ih =>
    obtain ⟨sh, shape, d⟩ := frozen.of_head shows head
    cases d with
    | list elem =>
      obtain ⟨id', reach, shows'⟩ := ih elem
      exact ⟨id', .elem shape mem reach, shows'⟩
  | entry head mem rest ih =>
    obtain ⟨sh, shape, d⟩ := frozen.of_head shows head
    cases d with
    | map elem =>
      obtain ⟨id', reach, shows'⟩ := ih elem
      exact ⟨id', .entry shape mem reach, shows'⟩
  | field head named found rest ih =>
    obtain ⟨sh, shape, d⟩ := frozen.of_head shows head
    cases d with
    | record row =>
      obtain ⟨l, mem, rfl⟩ := row.draft.labelled _ _ named
      obtain ⟨id', reach, shows'⟩ := ih (row.draft.shows mem named)
      exact ⟨id', .field shape mem found reach, shows'⟩
  | @payload t a t' r label payload v' head named rest ih =>
    obtain ⟨sh, shape, d⟩ := frozen.of_head shows head
    cases d with
    | @variant _ f row =>
      cases found : f.labels.find? fun l => l.1 = label with
      | none => exact absurd named (row.draft.find_eq_none.mp found _)
      | some l =>
        obtain ⟨id', reach, shows'⟩ := ih (row.draft.find_shows found named)
        exact ⟨id', .payload shape found reach, shows'⟩

theorem meets_iff_compares (frozen : Frozen u site T) {id : ℕ} {t : Ty} (shows : Shows u T id t) (v : Value)
    (var : ℕ) (side : Side) : Meets site id v var side ↔ Compares u t v var side := by
  constructor
  · rintro ⟨id', v', reach, shape, on⟩
    obtain ⟨t', position, shows'⟩ := position_of_at frozen reach shows
    have d := frozen.draws shows'
    rw [shape] at d
    generalize head : u.resolve t' = r at d
    generalize kind : Kind.COMPARABLE = k at d
    generalize weak : true = w at d
    cases d
    exact ⟨t', v', position, head, kind.symm, weak.symm, on⟩
  · rintro ⟨t', v', position, head, kind, weak, on⟩
    obtain ⟨id', reach, shows'⟩ := at_of_position frozen position shows
    have d := frozen.draws shows'
    rw [head] at d
    generalize shape : (site.node id').shape = sh at d
    cases d
    rw [kind, weak] at shape
    exact ⟨id', v', reach, shape, on⟩

/-! ## Sorts -/

theorem Draws.isValue {shape : Shape} {t : Ty} (h : Draws u T shape t) : shape.isValue = true := by
  cases h <;> rfl

theorem Draws.parts {shape : Shape} {s : Srt} {t : Term s} (h : Draws u T shape t) :
    ∀ id ∈ shape.parts, ∃ a : Ty, Shows u T id a := by
  intro id mem
  cases h with
  | list elem | map elem =>
    rw [List.mem_singleton.mp mem]
    exact ⟨_, elem⟩
  | record row | variant row =>
    obtain ⟨l, mem', rfl⟩ := List.mem_map.mp mem
    obtain ⟨a, -, shows⟩ := row.draft.shown l mem'
    exact ⟨a, shows⟩
  | _ => cases mem

theorem Frozen.valued (frozen : Frozen u site T) {id : ℕ} {t : Ty} (shows : Shows u T id t) : site.Valued id :=
  (frozen.draws shows).isValue

theorem Frozen.sorted (frozen : Frozen u site T) : site.Sorted := by
  intro id part mem
  by_cases inside : id < T.length
  · rcases eq : T[id] with ⟨s, t⟩
    have at' : T[id]? = some ⟨s, t⟩ := by rw [List.getElem?_eq_getElem inside, eq]
    obtain ⟨a, shows⟩ := (frozen.drawn id s t at').parts part mem
    exact frozen.valued shows
  · have out : site.node id = .placeholder := by
      rw [Site.node, List.getD_eq_getElem?_getD, List.getElem?_eq_none (by rw [← frozen.length]; omega)]
      rfl
    rw [out] at mem
    cases mem

end Ral.Boundary
