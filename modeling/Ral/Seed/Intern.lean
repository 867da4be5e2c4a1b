import Mathlib.Data.Finset.Card
import Ral.Seed.Wire

/-! # Interning environments

A row is reserved for each environment the first time it is met, and filled later from
a stack: what is being encoded never recurses into what it captured.
-/

namespace Ral.Seed

variable {Code Scheme : Type}

structure InternCtx (Code Scheme : Type) where
  scopeTable : ScopeTable Code Scheme
  roots : List (ℕ × UInt32)
  pending : List (UInt32 × ℕ)

namespace InternCtx

def new : InternCtx Code Scheme := ⟨[], [], []⟩

/-- A row's number is its place, cut to 32 bits. -/
def internEnv (ctx : InternCtx Code Scheme) (env : ℕ) : UInt32 × InternCtx Code Scheme :=
  match ctx.roots.find? fun root => root.1 = env with
  | some root => (root.2, ctx)
  | none =>
    let id := UInt32.ofNat ctx.scopeTable.length
    (id, { scopeTable := ctx.scopeTable ++ [[]], roots := ctx.roots ++ [(env, id)],
           pending := (id, env) :: ctx.pending })

def handleRefused : String :=
  "a handle reached the seed wire, though `Shell::bequeath` should have replaced it: this is a fault " ++
    "in ral rather than in your program: please report the source that produced it"

def leaf : Leaf Code → InternCtx Code Scheme → Except String (SerialValue Code × InternCtx Code Scheme)
  | .thunk comp env, ctx => .ok (.ext (.thunk comp (ctx.internEnv env).1), (ctx.internEnv env).2)
  | .native entry, ctx => .ok (.ext (.native entry.name), ctx)
  | .handle, _ => .error handleRefused

def fromRuntime (v : Value Code) (ctx : InternCtx Code Scheme) :
    Except String (SerialValue Code × InternCtx Code Scheme) := FOValue.walk leaf v ctx

def fromBindings : Env Code Scheme → InternCtx Code Scheme →
    Except String (List (String × SerialBinding Code Scheme) × InternCtx Code Scheme)
  | [], ctx => .ok ([], ctx)
  | (k, b) :: rest, ctx =>
    match fromRuntime b.value ctx with
    | .error e => .error e
    | .ok (value, ctx) =>
      match fromBindings rest ctx with
      | .error e => .error e
      | .ok (rest, ctx) => .ok ((k, ⟨value, b.scheme⟩) :: rest, ctx)

def finish (m : Memory Code Scheme) : ℕ → InternCtx Code Scheme → Option (Except String (ScopeTable Code Scheme))
  | 0, _ => none
  | fuel + 1, ctx =>
    match ctx.pending with
    | [] => some (.ok ctx.scopeTable)
    | (id, env) :: rest =>
      match fromBindings (m.env env) { ctx with pending := rest } with
      | .error e => some (.error e)
      | .ok (row, ctx) => finish m fuel { ctx with scopeTable := ctx.scopeTable.set id.toNat row }

/-! ## What interning keeps -/

def order (ctx : InternCtx Code Scheme) : List ℕ := ctx.roots.map Prod.fst

def number (ctx : InternCtx Code Scheme) (env : ℕ) : UInt32 := UInt32.ofNat (ctx.order.idxOf env)

end InternCtx

def serialRow (f : ℕ → UInt32) (env : Env Code Scheme) : List (String × SerialBinding Code Scheme) :=
  env.map fun e => (e.1, ⟨serial f e.2.value, e.2.scheme⟩)

namespace InternCtx

/-- Each environment of `S` met once and numbered by its place. Those neither pending nor
in `out` have their row, and all they captured is met. -/
structure Sound (m : Memory Code Scheme) (S : Finset ℕ) (out : List ℕ) (ctx : InternCtx Code Scheme) : Prop where
  roots : ∀ r ∈ ctx.roots, r.2 = ctx.number r.1
  nodup : ctx.order.Nodup
  within : ∀ a ∈ ctx.order, a ∈ S
  length : ctx.scopeTable.length = ctx.order.length
  pending : ∀ p ∈ ctx.pending, p.2 ∈ ctx.order ∧ p.1 = ctx.number p.2
  rows : ∀ a ∈ ctx.order, a ∉ out → a ∉ ctx.pending.map Prod.snd →
    ctx.scopeTable[ctx.order.idxOf a]? = some (serialRow ctx.number (m.env a)) ∧
      ∀ e ∈ m.env a, ∀ c ∈ e.2.value.captured, c ∈ ctx.order

/-- More are met, each pending. -/
structure Grown (ctx ctx' : InternCtx Code Scheme) : Prop where
  order : ctx.order <+: ctx'.order
  work : ctx'.pending.length + ctx.order.length = ctx.pending.length + ctx'.order.length

theorem Grown.refl (ctx : InternCtx Code Scheme) : Grown ctx ctx := ⟨List.prefix_refl _, rfl⟩

theorem Grown.trans {a b c : InternCtx Code Scheme} (h : Grown a b) (h' : Grown b c) : Grown a c where
  order := h.order.trans h'.order
  work := by
    have := h.work
    have := h'.work
    omega

theorem Grown.mem {ctx ctx' : InternCtx Code Scheme} (h : Grown ctx ctx') {a : ℕ} (mem : a ∈ ctx.order) :
    a ∈ ctx'.order := h.order.subset mem

theorem idxOf_earlier {l l' : List ℕ} (h : l <+: l') {a : ℕ} (mem : a ∈ l) : l'.idxOf a = l.idxOf a := by
  obtain ⟨t, rfl⟩ := h
  exact List.idxOf_append_of_mem mem

theorem Grown.number {ctx ctx' : InternCtx Code Scheme} (h : Grown ctx ctx') {a : ℕ} (mem : a ∈ ctx.order) :
    ctx'.number a = ctx.number a := congrArg UInt32.ofNat (idxOf_earlier h.order mem)

theorem Grown.serialRow {ctx ctx' : InternCtx Code Scheme} (h : Grown ctx ctx') {env : Env Code Scheme}
    (met : ∀ e ∈ env, ∀ c ∈ e.2.value.captured, c ∈ ctx.order) :
    serialRow ctx'.number env = serialRow ctx.number env := by
  apply List.map_congr_left
  intro e he
  rw [serial_congr e.2.value fun a ha => h.number (met e he a ha)]

section Interning

variable {m : Memory Code Scheme} {S : Finset ℕ} {out : List ℕ} {ctx : InternCtx Code Scheme}

theorem sound_new : Sound m S [] (new : InternCtx Code Scheme) where
  roots := by simp [new]
  nodup := List.nodup_nil
  within := by simp [new, order]
  length := rfl
  pending := by simp [new]
  rows := by simp [new, order]

theorem Sound.count (h : Sound m S out ctx) : ctx.order.length ≤ S.card := by
  rw [← List.toFinset_card_of_nodup h.nodup]
  exact Finset.card_le_card fun x hx => h.within x (List.mem_toFinset.mp hx)

/-- An environment of `S` is met, and its number is its place. -/
theorem Sound.interns (h : Sound m S out ctx) {a : ℕ} (mem : a ∈ S) :
    Sound m S out (ctx.internEnv a).2 ∧ Grown ctx (ctx.internEnv a).2 ∧ a ∈ (ctx.internEnv a).2.order ∧
      (ctx.internEnv a).1 = (ctx.internEnv a).2.number a := by
  unfold internEnv
  cases found : ctx.roots.find? fun root => root.1 = a with
  | some root =>
    have same : root.1 = a := by simpa using List.find?_some found
    have at_ := List.mem_of_find?_eq_some found
    exact ⟨h, .refl ctx, same ▸ List.mem_map_of_mem at_, same ▸ h.roots root at_⟩
  | none =>
    have fresh : a ∉ ctx.order := by
      intro old
      obtain ⟨r, hr, eq⟩ := List.mem_map.mp old
      have no := List.find?_eq_none.mp found r hr
      simp [eq] at no
    dsimp only
    generalize hid : UInt32.ofNat ctx.scopeTable.length = id
    let ctx' : InternCtx Code Scheme :=
      { scopeTable := ctx.scopeTable ++ [[]], roots := ctx.roots ++ [(a, id)], pending := (id, a) :: ctx.pending }
    show Sound m S out ctx' ∧ Grown ctx ctx' ∧ a ∈ ctx'.order ∧ id = ctx'.number a
    have ord : ctx'.order = ctx.order ++ [a] := by
      show (ctx.roots ++ [(a, id)]).map Prod.fst = _
      rw [List.map_append]
      rfl
    have grown : Grown ctx ctx' := by
      constructor
      · rw [ord]
        exact List.prefix_append ..
      · show (ctx.pending.length + 1) + _ = _
        rw [ord, List.length_append, List.length_singleton]
        omega
    have here : a ∈ ctx'.order := by
      rw [ord]
      simp
    have place : ctx'.order.idxOf a = ctx.order.length := by
      rw [ord, List.idxOf_append_of_notMem fresh]
      simp
    have numbered : id = ctx'.number a := by
      rw [number, place, ← hid, h.length]
    have sound : Sound m S out ctx' := by
      constructor
      · intro r hr
        rcases List.mem_append.mp hr with old | new
        · rw [h.roots r old, grown.number (List.mem_map_of_mem old)]
        · rw [List.mem_singleton.mp new]
          exact numbered
      · rw [ord]
        exact List.nodup_append.mpr ⟨h.nodup, List.nodup_singleton a, fun x hx y hy => by
          rw [List.mem_singleton.mp hy]
          rintro rfl
          exact fresh hx⟩
      · intro x hx
        rw [ord] at hx
        rcases List.mem_append.mp hx with old | new
        · exact h.within x old
        · rw [List.mem_singleton.mp new]
          exact mem
      · show (ctx.scopeTable ++ [[]]).length = _
        rw [ord, List.length_append, List.length_append, h.length]
        rfl
      · intro p hp
        rcases List.mem_cons.mp hp with rfl | old
        · exact ⟨here, numbered⟩
        · obtain ⟨met, num⟩ := h.pending p old
          exact ⟨grown.mem met, num.trans (grown.number met).symm⟩
      · intro x hx free apart
        have apart : x ≠ a ∧ x ∉ ctx.pending.map Prod.snd := by simpa [ctx'] using apart
        have old : x ∈ ctx.order := by
          rw [ord] at hx
          rcases List.mem_append.mp hx with old | new
          · exact old
          · exact absurd (List.mem_singleton.mp new) apart.1
        obtain ⟨row, met⟩ := h.rows x old free apart.2
        refine ⟨?_, fun e he c hc => grown.mem (met e he c hc)⟩
        have lt : ctx.order.idxOf x < ctx.scopeTable.length := by
          rw [h.length]
          exact List.idxOf_lt_length_of_mem old
        rw [idxOf_earlier grown.order old, grown.serialRow met, ← row]
        exact List.getElem?_append_left lt
    exact ⟨sound, grown, here, numbered⟩

/-- An encoding that met all of `captured`. -/
structure Met (m : Memory Code Scheme) (S : Finset ℕ) (out : List ℕ) (ctx ctx' : InternCtx Code Scheme)
    (captured : List ℕ) : Prop where
  sound : Sound m S out ctx'
  grown : Grown ctx ctx'
  met : ∀ a ∈ captured, a ∈ ctx'.order

theorem Met.append {ctx ctx₁ ctx₂ : InternCtx Code Scheme} {c₁ c₂ : List ℕ} (h₁ : Met m S out ctx ctx₁ c₁)
    (h₂ : Met m S out ctx₁ ctx₂ c₂) : Met m S out ctx ctx₂ (c₁ ++ c₂) where
  sound := h₂.sound
  grown := h₁.grown.trans h₂.grown
  met a mem := by
    rcases List.mem_append.mp mem with first | second
    · exact h₂.grown.mem (h₁.met a first)
    · exact h₂.met a second

theorem Met.serial {ctx ctx₁ ctx₂ : InternCtx Code Scheme} {v : Value Code} {c : List ℕ}
    (h₁ : Met m S out ctx ctx₁ v.captured) (h₂ : Met m S out ctx₁ ctx₂ c) :
    serial ctx₁.number v = serial ctx₂.number v :=
  serial_congr v fun a mem => (h₂.grown.number (h₁.met a mem)).symm

variable {table : BuiltinTable}

mutual

theorem Sound.walk : (v : Value Code) → v.crosses table → (∀ a ∈ v.captured, a ∈ S) →
    ∀ {ctx : InternCtx Code Scheme}, Sound m S out ctx →
      ∃ ctx', FOValue.walk leaf v ctx = .ok (serial ctx'.number v, ctx') ∧ Met m S out ctx ctx' v.captured
  | .list items, cross, inside, _, h => by
    obtain ⟨ctx', walked, met⟩ := Sound.walkItems items cross inside h
    refine ⟨ctx', ?_, met⟩
    rw [FOValue.walk, walked]
    rfl
  | .map entries, cross, inside, _, h => by
    obtain ⟨ctx', walked, met⟩ := Sound.walkEntries entries cross inside h
    refine ⟨ctx', ?_, met⟩
    rw [FOValue.walk, walked]
    rfl
  | .variant label (some p), cross, inside, _, h => by
    obtain ⟨ctx', walked, met⟩ := Sound.walk p cross inside h
    refine ⟨ctx', ?_, met⟩
    rw [FOValue.walk, walked]
    rfl
  | .thunk comp env, _, inside, ctx, h => by
    obtain ⟨sound, grown, met, number⟩ := h.interns (inside env (List.mem_singleton.mpr rfl))
    refine ⟨(ctx.internEnv env).2, ?_, sound, grown, fun a mem => ?_⟩
    · rw [FOValue.walk, leaf, number]
      rfl
    · rw [List.mem_singleton.mp mem]
      exact met
  | .handle, cross, _, _, _ => cross.elim
  | .unit, _, _, ctx, h | .bool _, _, _, ctx, h | .int _, _, _, ctx, h | .float _, _, _, ctx, h
  | .string _, _, _, ctx, h | .bytes _, _, _, ctx, h | .variant _ none, _, _, ctx, h
  | .native _, _, _, ctx, h => ⟨ctx, rfl, h, .refl ctx, fun _ mem => nomatch mem⟩

theorem Sound.walkItems : (items : List (Value Code)) → Value.crossesItems table items →
    (∀ a ∈ Value.capturedItems items, a ∈ S) → ∀ {ctx : InternCtx Code Scheme}, Sound m S out ctx →
      ∃ ctx', FOValue.walkItems leaf items ctx = .ok (serialItems ctx'.number items, ctx') ∧
        Met m S out ctx ctx' (Value.capturedItems items)
  | [], _, _, ctx, h => ⟨ctx, rfl, h, .refl ctx, fun _ mem => nomatch mem⟩
  | v :: rest, cross, inside, _, h => by
    obtain ⟨ctx₁, walked, met₁⟩ := Sound.walk v cross.1 (fun a mem => inside a (List.mem_append_left _ mem)) h
    obtain ⟨ctx₂, others, met₂⟩ :=
      Sound.walkItems rest cross.2 (fun a mem => inside a (List.mem_append_right _ mem)) met₁.sound
    refine ⟨ctx₂, ?_, met₁.append met₂⟩
    rw [FOValue.walkItems, walked]
    dsimp only
    rw [others, met₁.serial met₂]
    rfl

theorem Sound.walkEntries : (entries : List (String × Value Code)) → Value.crossesEntries table entries →
    (∀ a ∈ Value.capturedEntries entries, a ∈ S) → ∀ {ctx : InternCtx Code Scheme}, Sound m S out ctx →
      ∃ ctx', FOValue.walkEntries leaf entries ctx = .ok (serialEntries ctx'.number entries, ctx') ∧
        Met m S out ctx ctx' (Value.capturedEntries entries)
  | [], _, _, ctx, h => ⟨ctx, rfl, h, .refl ctx, fun _ mem => nomatch mem⟩
  | (k, v) :: rest, cross, inside, _, h => by
    obtain ⟨ctx₁, walked, met₁⟩ := Sound.walk v cross.1 (fun a mem => inside a (List.mem_append_left _ mem)) h
    obtain ⟨ctx₂, others, met₂⟩ :=
      Sound.walkEntries rest cross.2 (fun a mem => inside a (List.mem_append_right _ mem)) met₁.sound
    refine ⟨ctx₂, ?_, met₁.append met₂⟩
    rw [FOValue.walkEntries, walked]
    dsimp only
    rw [others, met₁.serial met₂]
    rfl

end

def capturedBy (env : Env Code Scheme) : List ℕ := env.flatMap fun e => e.2.value.captured

theorem mem_capturedBy {env : Env Code Scheme} {c : ℕ} :
    c ∈ capturedBy env ↔ ∃ e ∈ env, c ∈ e.2.value.captured := List.mem_flatMap

theorem Sound.bindings (env : Env Code Scheme) (cross : ∀ e ∈ env, e.2.value.crosses table)
    (inside : ∀ c ∈ capturedBy env, c ∈ S) {ctx : InternCtx Code Scheme} (h : Sound m S out ctx) :
    ∃ ctx', fromBindings env ctx = .ok (Seed.serialRow ctx'.number env, ctx') ∧
      Met m S out ctx ctx' (capturedBy env) := by
  induction env generalizing ctx with
  | nil => exact ⟨ctx, rfl, h, .refl ctx, fun _ mem => nomatch mem⟩
  | cons e rest ih =>
    obtain ⟨k, b⟩ := e
    obtain ⟨ctx₁, walked, met₁⟩ := h.walk b.value (cross _ List.mem_cons_self)
      (fun a mem => inside a (List.mem_append_left _ mem))
    obtain ⟨ctx₂, others, met₂⟩ := ih (fun e mem => cross e (List.mem_cons_of_mem _ mem))
      (fun a mem => inside a (List.mem_append_right _ mem)) met₁.sound
    refine ⟨ctx₂, ?_, met₁.append met₂⟩
    rw [fromBindings, fromRuntime, walked]
    dsimp only
    rw [others, met₁.serial met₂]
    rfl

/-! ## The worklist -/

/-- The environments of `S` capture only one another, and cross. -/
structure Closed (m : Memory Code Scheme) (table : BuiltinTable) (S : Finset ℕ) : Prop where
  inside : ∀ a ∈ S, ∀ c ∈ capturedBy (m.env a), c ∈ S
  cross : ∀ a ∈ S, ∀ e ∈ m.env a, e.2.value.crosses table

theorem Sound.pops (h : Sound m S [] ctx) {id : UInt32} {a : ℕ} {rest : List (UInt32 × ℕ)}
    (top : ctx.pending = (id, a) :: rest) : Sound m S [a] { ctx with pending := rest } where
  roots := h.roots
  nodup := h.nodup
  within := h.within
  length := h.length
  pending p mem := h.pending p (by rw [top]; exact List.mem_cons_of_mem _ mem)
  rows x mem free apart := by
    refine h.rows x mem (List.not_mem_nil) ?_
    rw [top, List.map_cons, List.mem_cons, not_or]
    exact ⟨fun eq => free (List.mem_singleton.mpr eq), apart⟩

theorem Sound.place_lt (few : S.card ≤ 2 ^ 32) (h : Sound m S out ctx) {a : ℕ} (mem : a ∈ ctx.order) :
    (ctx.number a).toNat = ctx.order.idxOf a := by
  have lt := List.idxOf_lt_length_of_mem mem
  have le := h.count
  apply UInt32.toNat_ofNat_of_lt'
  show _ < 2 ^ 32
  omega

/-- Its row is filled. -/
theorem Sound.fills (few : S.card ≤ 2 ^ 32) {a : ℕ} (h : Sound m S [a] ctx) (mem : a ∈ ctx.order)
    (met : ∀ c ∈ capturedBy (m.env a), c ∈ ctx.order) :
    Sound m S [] { ctx with
      scopeTable := ctx.scopeTable.set (ctx.number a).toNat (Seed.serialRow ctx.number (m.env a)) } where
  roots := h.roots
  nodup := h.nodup
  within := h.within
  length := by
    rw [List.length_set]
    exact h.length
  pending := h.pending
  rows x hx _ apart := by
    rw [h.place_lt few mem]
    show (ctx.scopeTable.set (ctx.order.idxOf a) (Seed.serialRow ctx.number (m.env a)))[ctx.order.idxOf x]? = _ ∧ _
    have lt : ctx.order.idxOf a < ctx.scopeTable.length := by
      rw [h.length]
      exact List.idxOf_lt_length_of_mem mem
    by_cases same : x = a
    · subst same
      exact ⟨List.getElem?_set_self lt, fun e he c hc => met c (mem_capturedBy.mpr ⟨e, he, hc⟩)⟩
    · have ne : ctx.order.idxOf a ≠ ctx.order.idxOf x := fun eq => same ((List.idxOf_inj mem).mp eq).symm
      obtain ⟨row, old⟩ := h.rows x hx (fun eq => same (List.mem_singleton.mp eq)) apart
      exact ⟨(List.getElem?_set_ne ne).trans row, old⟩

theorem Sound.finishes (few : S.card ≤ 2 ^ 32) (closed : Closed m table S) (fuel : ℕ)
    {ctx : InternCtx Code Scheme} (h : Sound m S [] ctx)
    (enough : S.card + ctx.pending.length < fuel + ctx.order.length) :
    ∃ ctx', finish m fuel ctx = some (.ok ctx'.scopeTable) ∧ Sound m S [] ctx' ∧ ctx.order <+: ctx'.order ∧
      ctx'.pending = [] := by
  induction fuel generalizing ctx with
  | zero =>
    have le := h.count
    omega
  | succ fuel ih =>
    unfold finish
    cases top : ctx.pending with
    | nil => exact ⟨ctx, rfl, h, List.prefix_refl _, top⟩
    | cons p rest =>
      obtain ⟨id, a⟩ := p
      obtain ⟨mem, num⟩ := h.pending (id, a) (by rw [top]; exact List.mem_cons_self)
      have inS := h.within a mem
      obtain ⟨ctx₁, made, met⟩ := (h.pops top).bindings (m.env a) (closed.cross a inS) (closed.inside a inS)
      have mem₁ : a ∈ ctx₁.order := met.grown.mem mem
      have place : id.toNat = (ctx₁.number a).toNat := by
        rw [met.grown.number mem]
        exact congrArg _ num
      have sound := met.sound.fills few mem₁ met.met
      dsimp only
      rw [made]
      dsimp only
      rw [place]
      obtain ⟨ctx', done, sound', grown, empty⟩ := ih sound (by
        have work : ctx₁.pending.length + ctx.order.length = rest.length + ctx₁.order.length := met.grown.work
        rw [top, List.length_cons] at enough
        show S.card + ctx₁.pending.length < fuel + ctx₁.order.length
        omega)
      exact ⟨ctx', done, sound', met.grown.order.trans grown, empty⟩

/-- More fuel ends the same. -/
theorem finish_mono {m : Memory Code Scheme} {fuel fuel' : ℕ} (le : fuel ≤ fuel') {ctx : InternCtx Code Scheme}
    {r : Except String (ScopeTable Code Scheme)} (h : finish m fuel ctx = some r) : finish m fuel' ctx = some r := by
  induction fuel generalizing fuel' ctx with
  | zero => cases h
  | succ fuel ih =>
    cases fuel' with
    | zero => omega
    | succ fuel' =>
      unfold finish at h ⊢
      cases top : ctx.pending with
      | nil =>
        rw [top] at h
        exact h
      | cons p rest =>
        obtain ⟨id, a⟩ := p
        rw [top] at h
        dsimp only at h ⊢
        cases made : fromBindings (m.env a) { ctx with pending := rest } with
        | error e =>
          rw [made] at h
          exact h
        | ok r =>
          rw [made] at h
          exact ih (by omega) h

end Interning

end InternCtx

end Ral.Seed
