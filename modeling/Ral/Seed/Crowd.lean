import Mathlib.Combinatorics.Pigeonhole
import Ral.Seed.Arrival

/-! # More environments than ids

A row's id is 32 bits wide, so what was decoded captured at most 2^32 environments,
whatever the table: a bequest of more does not arrive.
-/

namespace Ral.Seed

variable {Code Scheme Held Rest : Type}

def WireDecoder.Known (dec : WireDecoder Code Scheme) (a : ℕ) : Prop := ∃ id : UInt32, dec.rows id.toNat = some a

section Known

variable {dec : WireDecoder Code Scheme}

theorem rebuild_known {x : SerialClosure Code} {v : Value Code} (h : dec.rebuild x = .ok v) :
    ∀ a ∈ v.captured, dec.Known a := by
  cases x with
  | thunk comp env =>
    unfold WireDecoder.rebuild WireDecoder.env at h
    dsimp only at h
    cases row : dec.rows env.toNat with
    | none =>
      rw [row] at h
      cases h
    | some a =>
      rw [row] at h
      cases h
      intro a' mem
      rw [List.mem_singleton.mp mem]
      exact ⟨env, row⟩
  | native name =>
    unfold WireDecoder.rebuild at h
    dsimp only at h
    cases found : dec.manifest.value name with
    | none =>
      rw [found] at h
      cases h
    | some entry =>
      rw [found] at h
      cases h
      intro a mem
      cases mem

mutual

theorem unwalk_known : (w : SerialValue Code) → (v : Value Code) → w.unwalk dec.rebuild = .ok v →
    ∀ a ∈ v.captured, dec.Known a
  | .list items, v, h => by
    rw [FOValue.unwalk] at h
    cases made : FOValue.unwalkItems dec.rebuild items with
    | error e =>
      rw [made] at h
      cases h
    | ok vs =>
      rw [made] at h
      cases h
      exact unwalkItems_known items vs made
  | .map entries, v, h => by
    rw [FOValue.unwalk] at h
    cases made : FOValue.unwalkEntries dec.rebuild entries with
    | error e =>
      rw [made] at h
      cases h
    | ok vs =>
      rw [made] at h
      cases h
      intro a mem
      rw [Value.captured, Value.capturedEntries_eq] at mem
      obtain ⟨e, he, ha⟩ := List.mem_flatMap.mp mem
      have was : a ∈ Value.capturedEntries vs := by
        rw [Value.capturedEntries_eq]
        exact List.mem_flatMap.mpr ⟨e, SortedMap.mem_ofList he, ha⟩
      exact unwalkEntries_known entries vs made a was
  | .variant label (some p), v, h => by
    rw [FOValue.unwalk] at h
    cases made : p.unwalk dec.rebuild with
    | error e =>
      rw [made] at h
      cases h
    | ok q =>
      rw [made] at h
      cases h
      intro a mem
      refine unwalk_known p q made a ?_
      cases q with
      | unit => cases mem
      | variant | bool | int | float | string | bytes | list | map | thunk | native | handle => exact mem
  | .ext x, v, h => rebuild_known h
  | .unit, v, h | .bool _, v, h | .int _, v, h | .float _, v, h | .string _, v, h | .bytes _, v, h
  | .variant _ none, v, h => by
    cases h
    exact fun _ mem => nomatch mem

theorem unwalkItems_known : (ws : List (SerialValue Code)) → (vs : List (Value Code)) →
    FOValue.unwalkItems dec.rebuild ws = .ok vs → ∀ a ∈ Value.capturedItems vs, dec.Known a
  | [], vs, h => by
    cases h
    exact fun _ mem => nomatch mem
  | w :: rest, vs, h => by
    rw [FOValue.unwalkItems] at h
    cases made : w.unwalk dec.rebuild with
    | error e =>
      rw [made] at h
      cases h
    | ok v =>
      rw [made] at h
      dsimp only at h
      cases others : FOValue.unwalkItems dec.rebuild rest with
      | error e =>
        rw [others] at h
        cases h
      | ok vs' =>
        rw [others] at h
        cases h
        intro a mem
        rcases List.mem_append.mp mem with here | later
        · exact unwalk_known w v made a here
        · exact unwalkItems_known rest vs' others a later

theorem unwalkEntries_known : (ws : List (String × SerialValue Code)) → (vs : List (String × Value Code)) →
    FOValue.unwalkEntries dec.rebuild ws = .ok vs → ∀ a ∈ Value.capturedEntries vs, dec.Known a
  | [], vs, h => by
    cases h
    exact fun _ mem => nomatch mem
  | (k, w) :: rest, vs, h => by
    rw [FOValue.unwalkEntries] at h
    cases made : w.unwalk dec.rebuild with
    | error e =>
      rw [made] at h
      cases h
    | ok v =>
      rw [made] at h
      dsimp only at h
      cases others : FOValue.unwalkEntries dec.rebuild rest with
      | error e =>
        rw [others] at h
        cases h
      | ok vs' =>
        rw [others] at h
        cases h
        intro a mem
        rcases List.mem_append.mp mem with here | later
        · exact unwalk_known w v made a here
        · exact unwalkEntries_known rest vs' others a later

end

end Known

/-! ## More environments than ids -/

def told (a : ℕ) : Value Unit := .list (List.replicate a .unit)

def blocks (n : ℕ) : Value Unit := .list ((List.range n).map (.thunk ()))

theorem captured_told (a : ℕ) : (told a).captured = [] := by
  rw [told, Value.captured, Value.capturedItems_eq, List.flatMap_eq_nil_iff]
  intro v mem
  rw [List.eq_of_mem_replicate mem]
  rfl

theorem mem_captured_blocks {n a : ℕ} : a ∈ (blocks n).captured ↔ a < n := by
  rw [blocks, Value.captured, Value.capturedItems_eq]
  simp [Value.captured]

/-- `n` environments told apart by what they bind, and one whose list holds a block over
each. -/
def crowd (n : ℕ) : Memory Unit Unit where
  env a := if a < n then [("z", ⟨told a, none⟩)] else if a = n then [("xs", ⟨blocks n, none⟩)] else []
  distinct a := by split <;> [simp; (split <;> simp)]
  older a := by
    split
    · intro e he c hc
      rw [List.mem_singleton.mp he, captured_told] at hc
      cases hc
    · split
      · next eq =>
          intro e he c hc
          rw [List.mem_singleton.mp he, mem_captured_blocks] at hc
          omega
      · exact fun e he => nomatch he
  formed a := by
    split
    · intro e he
      rw [List.mem_singleton.mp he]
      apply Value.formedItems_iff.mpr
      intro v mem
      rw [List.eq_of_mem_replicate mem]
      trivial
    · split
      · intro e he
        rw [List.mem_singleton.mp he]
        apply Value.formedItems_iff.mpr
        intro v mem
        obtain ⟨c, -, rfl⟩ := List.mem_map.mp mem
        trivial
      · exact fun e he => nomatch he

def crowdBequest (n : ℕ) : Bequest Unit Unit Unit Unit := ⟨n, [], (), ()⟩

theorem scrubbed_crowd (n : ℕ) (manifest : BuiltinTable) : (crowdBequest n).Scrubbed (crowd n) manifest := by
  constructor
  · intro a _ e he
    have cases_ : e.2.value = told a ∨ e.2.value = blocks n := by
      simp only [crowd] at he
      split at he
      · exact Or.inl (by rw [List.mem_singleton.mp he])
      · split at he
        · exact Or.inr (by rw [List.mem_singleton.mp he])
        · cases he
    rcases cases_ with eq | eq
    · rw [eq]
      apply Value.crossesItems_iff.mpr
      intro v mem
      rw [List.eq_of_mem_replicate mem]
      trivial
    · rw [eq]
      apply Value.crossesItems_iff.mpr
      intro v mem
      obtain ⟨c, -, rfl⟩ := List.mem_map.mp mem
      trivial
  · intro frame mem
    cases mem

theorem reaches_crowd {n a : ℕ} (lt : a < n) : (crowdBequest n).Reaches (crowd n) a := by
  apply Bequest.Reaches.captured .env
  refine InternCtx.mem_capturedBy.mpr ⟨("xs", ⟨blocks n, none⟩), ?_, mem_captured_blocks.mpr lt⟩
  simp [crowd, crowdBequest]

theorem told_inj {g : ℕ → ℕ} {a a' : ℕ} (h : (told a).relocate g = (told a').relocate g) : a = a' := by
  rw [told, told, Value.relocate, Value.relocate, Value.relocateItems_eq, Value.relocateItems_eq] at h
  have lengths := congrArg List.length (Value.list.inj h)
  simpa using lengths

/-- What a seed decoded to: its environment a row's, in the decoder's heap. -/
theorem decode_ok {manifest : BuiltinTable} {rehold : Held → Held} {seed : EngineSeed Code Scheme Held Rest}
    {heap : List (Env Code Scheme)} {b : Bequest Code Scheme Held Rest}
    (h : EngineSeed.decode manifest rehold seed = some (.ok (heap, b))) :
    ∃ dec, Built manifest seed.scopeTable (Finset.range seed.scopeTable.length) dec ∧ heap = dec.heap ∧
      dec.rows seed.env.toNat = some b.env := by
  obtain ⟨r, ran, good⟩ := forRuntime_ends manifest seed.scopeTable
  unfold EngineSeed.decode at h
  rw [ran] at h
  cases r with
  | error e => cases h
  | ok dec =>
    dsimp only at h
    cases handlers : WireHandlerFrame.framesInto dec seed.handlers with
    | error e =>
      rw [handlers] at h
      cases h
    | ok frames =>
      rw [handlers] at h
      dsimp only at h
      unfold WireDecoder.env at h
      cases row : dec.rows seed.env.toNat with
      | none =>
        rw [row] at h
        cases h
      | some a =>
        rw [row] at h
        cases h
        exact ⟨dec, good dec rfl, rfl, row⟩

/-- What a built row binds captured rows' addresses alone. -/
theorem intoBindings_known {dec : WireDecoder Code Scheme} :
    ∀ {row : List (String × SerialBinding Code Scheme)} {bindings : Env Code Scheme},
      intoBindings dec row = .ok bindings → ∀ e ∈ bindings, ∀ a ∈ e.2.value.captured, dec.Known a
  | [], _, h => by
    cases h
    exact fun _ mem => nomatch mem
  | (k, b) :: rest, bindings, h => by
    rw [intoBindings] at h
    cases made : intoRuntime b.value dec with
    | error e =>
      rw [made] at h
      cases h
    | ok v =>
      rw [made] at h
      dsimp only at h
      cases others : intoBindings dec rest with
      | error e =>
        rw [others] at h
        cases h
      | ok bs =>
        rw [others] at h
        cases h
        intro e mem
        rcases List.mem_cons.mp mem with rfl | later
        · exact unwalk_known b.value v made
        · exact intoBindings_known others e later

/-- A bequest of more environments than there are ids does not arrive, whatever its seed. -/
theorem crowd_stays {n : ℕ} (past : 2 ^ 32 < n) {manifest : BuiltinTable} {rehold : Unit → Unit}
    {seed : EngineSeed Unit Unit Unit Unit} {heap : List (Env Unit Unit)} {b : Bequest Unit Unit Unit Unit}
    {g : ℕ → ℕ} (decoded : EngineSeed.decode manifest rehold seed = some (.ok (heap, b))) :
    ¬ Arrives (crowd n) (crowdBequest n) heap b g := by
  intro arrives
  obtain ⟨dec, built, rfl, row⟩ := decode_ok decoded
  have inside : seed.env.toNat ∈ Finset.range seed.scopeTable.length := by
    by_contra out
    rw [built.later _ out] at row
    cases row
  obtain ⟨a, bindings, row', read, here⟩ := built.rows _ inside
  have image : a = g n := by
    rw [row'] at row
    cases row
    exact arrives.env
  -- The list of blocks, as it was decoded.
  obtain ⟨env, at_, names⟩ := arrives.names n .env
  have same : env = (SortedMap.ofList bindings).entries := by
    rw [← image, here] at at_
    cases at_
    rfl
  have xs : env.binding "xs" = some ⟨(blocks n).relocate g, none⟩ := by
    rw [names "xs"]
    simp [crowd, Env.binding, Binding.relocate]
  have mem : ("xs", (⟨(blocks n).relocate g, none⟩ : Binding Unit Unit)) ∈ bindings := by
    have mem := Env.mem_of_binding xs
    rw [same] at mem
    exact SortedMap.mem_ofList mem
  have known : ∀ c < n, ∃ id : UInt32, dec.rows id.toNat = some (g c) := by
    intro c lt
    apply intoBindings_known read _ mem
    rw [blocks, Value.relocate, Value.captured, Value.relocateItems_eq, Value.capturedItems_eq]
    simp only [List.mem_flatMap, List.mem_map, List.mem_range]
    exact ⟨.thunk () (g c), ⟨.thunk () c, ⟨c, lt, rfl⟩, rfl⟩, List.mem_singleton.mpr rfl⟩
  choose! id rows using known
  -- Two of the blocks share an id, and so an environment.
  obtain ⟨c, hc, c', hc', ne, eq⟩ := Finset.exists_ne_map_eq_of_card_lt_of_maps_to
    (s := Finset.range n) (t := Finset.range (2 ^ 32)) (f := fun c => (id c).toNat)
    (by rw [Finset.card_range, Finset.card_range]; exact past)
    (fun c _ => Finset.mem_coe.mpr (Finset.mem_range.mpr (id c).toNat_lt))
  have lt := Finset.mem_range.mp hc
  have lt' := Finset.mem_range.mp hc'
  have place : g c = g c' := by
    have first := rows c lt
    have second := rows c' lt'
    rw [eq, second] at first
    exact (Option.some.inj first).symm
  obtain ⟨e, at_c, z⟩ := arrives.names c (reaches_crowd lt)
  obtain ⟨e', at_c', later⟩ := arrives.names c' (reaches_crowd lt')
  have one : e = e' := by
    rw [place, at_c'] at at_c
    exact (Option.some.inj at_c).symm
  have first : e.binding "z" = some ⟨(told c).relocate g, none⟩ := by
    rw [z "z"]
    simp [crowd, lt, Env.binding, Binding.relocate]
  have second : e'.binding "z" = some ⟨(told c').relocate g, none⟩ := by
    rw [later "z"]
    simp [crowd, lt', Env.binding, Binding.relocate]
  rw [one, second] at first
  exact ne (told_inj (congrArg Binding.value (Option.some.inj first)).symm)

/-- Past 2^32 environments a seed does not arrive. -/
theorem too_many_environments :
    (crowdBequest (2 ^ 32 + 1)).Scrubbed (crowd (2 ^ 32 + 1)) ⟨[], .nil⟩ ∧
      ∀ (rehold : Unit → Unit) (fuel : ℕ) (seed : EngineSeed Unit Unit Unit Unit) (heap : List (Env Unit Unit))
        (b : Bequest Unit Unit Unit Unit) (g : ℕ → ℕ),
        EngineSeed.encode fuel (crowd (2 ^ 32 + 1)) (crowdBequest (2 ^ 32 + 1)) = some (.ok seed) →
        EngineSeed.decode ⟨[], .nil⟩ rehold seed = some (.ok (heap, b)) →
        ¬ Arrives (crowd (2 ^ 32 + 1)) (crowdBequest (2 ^ 32 + 1)) heap b g :=
  ⟨scrubbed_crowd _ _, fun _ _ _ _ _ _ _ decoded => crowd_stays (Nat.lt_succ_self _) decoded⟩

end Ral.Seed
