import Ral.Core.Kahn
import Ral.Seed.Intern
import Ral.Seed.Wire

/-! # Rebuilding environments

One environment a row, each once the rows its closures name are built. The table may be
anything at all: the sort ends, with every row built or an error.
-/

namespace Ral.Seed

section

variable {Code Scheme : Type}

/-- The rows built so far, each an address in `heap`. -/
structure WireDecoder (Code Scheme : Type) where
  rows : ℕ → Option ℕ
  heap : List (Env Code Scheme)
  manifest : BuiltinTable

def unresolvedScopeRef (id : UInt32) : String :=
  "seed: scope ref " ++ toString id.toNat ++ " out of range or unresolved"

namespace WireDecoder

def env (dec : WireDecoder Code Scheme) (id : UInt32) : Except String ℕ :=
  match dec.rows id.toNat with
  | some a => .ok a
  | none => .error (unresolvedScopeRef id)

def rebuild (dec : WireDecoder Code Scheme) : SerialClosure Code → Except String (Value Code)
  | .thunk comp env =>
    match dec.env env with
    | .ok a => .ok (.thunk comp a)
    | .error e => .error e
  | .native name =>
    match dec.manifest.value name with
    | some entry => .ok (.native entry)
    | none => .error ("seed: unknown native '" ++ name ++ "' in receiving manifest")

end WireDecoder

def intoRuntime (v : SerialValue Code) (dec : WireDecoder Code Scheme) : Except String (Value Code) :=
  v.unwalk dec.rebuild

/-- A set of rows, as a list of each once: the order of a hash set is its own. -/
def collectScopeDeps (v : SerialValue Code) (out : List UInt32) : List UInt32 :=
  v.forEachExt (fun closure out =>
    match closure with
    | .thunk _ env => out.insert env
    | .native _ => out) out

def rowDeps (row : List (String × SerialBinding Code Scheme)) : List UInt32 :=
  row.foldl (fun set e => collectScopeDeps e.2.value set) []

def intoBindings (dec : WireDecoder Code Scheme) :
    List (String × SerialBinding Code Scheme) → Except String (Env Code Scheme)
  | [] => .ok []
  | (k, b) :: rest =>
    match intoRuntime b.value dec with
    | .error e => .error e
    | .ok value =>
      match intoBindings dec rest with
      | .error e => .error e
      | .ok rest => .ok ((k, ⟨value, b.scheme⟩) :: rest)

/-- The empty environment is one allocation, at address 0; extending by nothing keeps it. -/
def extended (heap : List (Env Code Scheme)) : Env Code Scheme → ℕ × List (Env Code Scheme)
  | [] => (0, heap)
  | e :: rest => (heap.length, heap ++ [(SortedMap.ofList (e :: rest)).entries])

def ScopeTable.row (table : ScopeTable Code Scheme) (id : ℕ) : List (String × SerialBinding Code Scheme) :=
  table[id]?.getD []

def ScopeTable.deps (table : ScopeTable Code Scheme) (id : ℕ) : Finset ℕ :=
  ((rowDeps (table.row id)).map UInt32.toNat).toFinset

def buildRow (table : ScopeTable Code Scheme) (id : ℕ) (dec : WireDecoder Code Scheme) :
    Except String (WireDecoder Code Scheme) :=
  match intoBindings dec (table.row id) with
  | .error e => .error e
  | .ok bindings =>
    .ok { dec with
      rows := Function.update dec.rows id (some (extended dec.heap bindings).1)
      heap := (extended dec.heap bindings).2 }

def WireDecoder.forRuntime (manifest : BuiltinTable) (table : ScopeTable Code Scheme) :
    Option (Except String (WireDecoder Code Scheme)) :=
  let n := table.length
  match (table.flatMap rowDeps).find? fun d => n ≤ d.toNat with
  | some d => some (.error (unresolvedScopeRef d))
  | none =>
    match Kahn.loop (Kahn.dependents n table.deps) (buildRow table) (n + 1)
        (Kahn.start n table.deps ⟨fun _ => none, [[]], manifest⟩) with
    | none => none
    | some (.error e) => some (.error e)
    | some (.ok s) => some (if s.built < n then .error "seed: cyclic scope dependencies" else .ok s.payload)

/-! ## The dependencies of a row -/

theorem mem_collectScopeDeps {v : SerialValue Code} {out : List UInt32} {d : UInt32} :
    d ∈ collectScopeDeps v out ↔ d ∈ out ∨ d ∈ v.refs := by
  unfold collectScopeDeps FOValue.forEachExt FOValue.refs
  induction v.exts generalizing out with
  | nil => simp
  | cons x rest ih =>
    rw [List.foldl_cons, ih]
    cases x with
    | thunk comp env =>
      simp only [List.mem_insert_iff, List.filterMap_cons, SerialClosure.row, List.mem_cons]
      tauto
    | native name => simp [SerialClosure.row]

theorem mem_rowDeps {row : List (String × SerialBinding Code Scheme)} {d : UInt32} :
    d ∈ rowDeps row ↔ ∃ e ∈ row, d ∈ e.2.value.refs := by
  have general : ∀ (row : List (String × SerialBinding Code Scheme)) (set : List UInt32),
      d ∈ row.foldl (fun set e => collectScopeDeps e.2.value set) set ↔
        d ∈ set ∨ ∃ e ∈ row, d ∈ e.2.value.refs := by
    intro row
    induction row with
    | nil => simp
    | cons e rest ih =>
      intro set
      rw [List.foldl_cons, ih, mem_collectScopeDeps]
      simp only [List.mem_cons, exists_eq_or_imp]
      tauto
  have all := general row []
  simpa [rowDeps] using all

theorem mem_deps {table : ScopeTable Code Scheme} {id d : ℕ} :
    d ∈ table.deps id ↔ ∃ r ∈ rowDeps (table.row id), r.toNat = d := by
  simp [ScopeTable.deps]

/-! ## Every row built -/

theorem intoBindings_mono {dec dec' : WireDecoder Code Scheme}
    (more : ∀ x v, dec.rebuild x = .ok v → dec'.rebuild x = .ok v) :
    ∀ {row : List (String × SerialBinding Code Scheme)} {bindings : Env Code Scheme},
      intoBindings dec row = .ok bindings → intoBindings dec' row = .ok bindings
  | [], _, h => h
  | (k, b) :: rest, bindings, h => by
    rw [intoBindings] at h ⊢
    cases made : intoRuntime b.value dec with
    | error e =>
      rw [made] at h
      cases h
    | ok v =>
      have same : intoRuntime b.value dec' = .ok v := unwalk_mono more b.value v made
      rw [made] at h
      rw [same]
      dsimp only at h ⊢
      cases others : intoBindings dec rest with
      | error e =>
        rw [others] at h
        cases h
      | ok vs =>
        rw [others] at h
        rw [intoBindings_mono more others]
        exact h

/-- The rows of `done` are built, each from what it reads as now. -/
structure Built (manifest : BuiltinTable) (table : ScopeTable Code Scheme) (done : Finset ℕ)
    (dec : WireDecoder Code Scheme) : Prop where
  empty : dec.heap[0]? = some []
  manifest : dec.manifest = manifest
  rows : ∀ id ∈ done, ∃ a bindings, dec.rows id = some a ∧ intoBindings dec (table.row id) = .ok bindings ∧
    dec.heap[a]? = some (SortedMap.ofList bindings).entries
  later : ∀ id, id ∉ done → dec.rows id = none

section Rows

variable {manifest : BuiltinTable} {table : ScopeTable Code Scheme}

theorem built_start : Built manifest table ∅ ⟨fun _ => none, [[]], manifest⟩ where
  empty := rfl
  manifest := rfl
  rows _ mem := nomatch mem
  later _ _ := rfl

theorem Built.builds {done : Finset ℕ} {dec dec' : WireDecoder Code Scheme} (h : Built manifest table done dec)
    {id : ℕ} (fresh : id ∉ done) (made : buildRow table id dec = .ok dec') :
    Built manifest table (insert id done) dec' := by
  unfold buildRow at made
  cases read : intoBindings dec (table.row id) with
  | error e =>
    rw [read] at made
    cases made
  | ok bindings =>
    rw [read] at made
    cases made
    have placed : (extended dec.heap bindings).2[(extended dec.heap bindings).1]? =
          some (SortedMap.ofList bindings).entries ∧
        ∀ (a : ℕ) (env : Env Code Scheme), dec.heap[a]? = some env → (extended dec.heap bindings).2[a]? = some env := by
      cases bindings with
      | nil => exact ⟨h.empty, fun _ _ old => old⟩
      | cons e rest =>
        refine ⟨List.getElem?_concat_length, fun a env old => ?_⟩
        have lt := (List.getElem?_eq_some_iff.mp old).1
        exact (List.getElem?_append_left lt).trans old
    have more : ∀ x v, dec.rebuild x = .ok v → WireDecoder.rebuild { dec with
        rows := Function.update dec.rows id (some (extended dec.heap bindings).1)
        heap := (extended dec.heap bindings).2 } x = .ok v := by
      intro x v hv
      cases x with
      | native name => exact hv
      | thunk comp env =>
        unfold WireDecoder.rebuild WireDecoder.env at hv ⊢
        dsimp only at hv ⊢
        by_cases same : env.toNat = id
        · rw [same, h.later id fresh] at hv
          cases hv
        · rw [Function.update_of_ne same]
          exact hv
    constructor
    · exact placed.2 0 [] h.empty
    · exact h.manifest
    · intro x mem
      rcases Finset.mem_insert.mp mem with rfl | old
      · exact ⟨_, bindings, Function.update_self .., intoBindings_mono more read, placed.1⟩
      · obtain ⟨a, bs, row, reads, at_⟩ := h.rows x old
        have ne : x ≠ id := fun eq => fresh (eq ▸ old)
        exact ⟨a, bs, (Function.update_of_ne ne ..).trans row, intoBindings_mono more reads, placed.2 a _ at_⟩
    · intro x out
      rw [Finset.mem_insert, not_or] at out
      exact (Function.update_of_ne out.1 ..).trans (h.later x out.2)

theorem loop_rows (manifest : BuiltinTable) (table : ScopeTable Code Scheme) :
    ∃ r, Kahn.loop (Kahn.dependents table.length table.deps) (buildRow table) (table.length + 1)
        (Kahn.start table.length table.deps ⟨fun _ => none, [[]], manifest⟩) = some r ∧
      (∀ s, r = .ok s → ∃ done, Kahn.Sound table.length table.deps done s ∧ s.ready = [] ∧
        Built manifest table done s.payload) ∧
      ∀ e, r = .error e → ∃ done id dec, id < table.length ∧ table.deps id ⊆ done ∧
        Built manifest table done dec ∧ buildRow table id dec = .error e :=
  Kahn.loop_ends (fun _ _ _ _ _ fresh _ hp made => hp.builds fresh made) (Kahn.sound_start _) built_start _ (by simp)

/-- Decoding ends whatever the table: with every row built, or an error. -/
theorem forRuntime_ends (manifest : BuiltinTable) (table : ScopeTable Code Scheme) :
    ∃ r, WireDecoder.forRuntime manifest table = some r ∧
      ∀ dec, r = .ok dec → Built manifest table (Finset.range table.length) dec := by
  unfold WireDecoder.forRuntime
  dsimp only
  cases (table.flatMap rowDeps).find? fun d => table.length ≤ d.toNat with
  | some d => exact ⟨_, rfl, fun dec eq => by cases eq⟩
  | none =>
    dsimp only
    obtain ⟨r, ran, good, -⟩ := loop_rows manifest table
    rw [ran]
    cases r with
    | error e => exact ⟨_, rfl, fun dec eq => by cases eq⟩
    | ok s =>
      refine ⟨_, rfl, fun dec eq => ?_⟩
      obtain ⟨done, sound, -, hp⟩ := good s rfl
      split at eq
      · cases eq
      · next all =>
          cases eq
          have le := Finset.card_le_card sound.inside
          rw [Finset.card_range, ← sound.built] at le
          have whole : s.built = table.length := by omega
          rw [sound.built_eq.mp whole] at hp
          exact hp

/-- With every reference in range and descending, and every build of a row good once its
references are built, the table decodes. -/
theorem forRuntime_ok (inRange : ∀ id < table.length, ∀ d ∈ table.deps id, d < table.length) (rank : ℕ → ℕ)
    (descends : ∀ id < table.length, ∀ d ∈ table.deps id, rank d < rank id)
    (reads : ∀ done dec id, id < table.length → table.deps id ⊆ done → Built manifest table done dec →
      ∃ bindings, intoBindings dec (table.row id) = .ok bindings) :
    ∃ dec, WireDecoder.forRuntime manifest table = some (.ok dec) ∧
      Built manifest table (Finset.range table.length) dec := by
  unfold WireDecoder.forRuntime
  dsimp only
  have within : (table.flatMap rowDeps).find? (fun d => table.length ≤ d.toNat) = none := by
    rw [List.find?_eq_none]
    intro d mem
    obtain ⟨row, hrow, hd⟩ := List.mem_flatMap.mp mem
    obtain ⟨id, lt, eq⟩ := List.getElem_of_mem hrow
    have dep : d.toNat ∈ table.deps id := by
      refine mem_deps.mpr ⟨d, ?_, rfl⟩
      rw [ScopeTable.row, List.getElem?_eq_getElem lt, eq]
      exact hd
    have below := inRange id lt _ dep
    simpa using below
  rw [within]
  dsimp only
  obtain ⟨r, ran, good, bad⟩ := loop_rows manifest table
  rw [ran]
  cases r with
  | error e =>
    obtain ⟨done, id, dec, lt, sub, hp, made⟩ := bad e rfl
    obtain ⟨bindings, read⟩ := reads done dec id lt sub hp
    rw [buildRow, read] at made
    cases made
  | ok s =>
    obtain ⟨done, sound, empty, hp⟩ := good s rfl
    have all := sound.complete empty fun id lt d mem => ⟨inRange id lt d mem, descends id lt d mem⟩
    have built := sound.built_eq.mpr all
    dsimp only
    rw [if_neg (by omega), ← all]
    exact ⟨s.payload, rfl, hp⟩

end Rows

end

/-! ## The engine seat's seed

A bequest in wire form: the image's environment and the handler frames, over one table of
scopes. What the codec does not look into rides as it is.
-/

variable {Code Scheme Held Rest : Type}

inductive HandlerArity
  | catchAll
  | unary

inductive FrameKind
  | within
  | alias

structure HandlerEntry (Code Scheme : Type) where
  name : String
  arity : HandlerArity
  thunk : Value Code
  scheme : Option Scheme

def HandlerEntry.ralPerName (name : String) (thunk : Value Code) : HandlerEntry Code Scheme :=
  ⟨name, .unary, thunk, none⟩

structure HandlerFrame (Code Scheme : Type) where
  entries : List (HandlerEntry Code Scheme)
  catchAll : Option (Value Code)
  kind : FrameKind

structure WireHandlerFrame (Code Scheme : Type) where
  entries : List (String × SerialValue Code × Option Scheme)
  catchAll : Option (SerialValue Code)
  kind : FrameKind

/-- The sources, terms, fixings and spawn grant, and the context's other fields, are in `rest`. -/
structure Bequest (Code Scheme Held Rest : Type) where
  env : ℕ
  handlers : List (HandlerFrame Code Scheme)
  grants : Held
  rest : Rest

structure EngineSeed (Code Scheme Held Rest : Type) where
  scopeTable : ScopeTable Code Scheme
  env : UInt32
  handlers : List (WireHandlerFrame Code Scheme)
  grants : Held
  rest : Rest

/-! ## Encoding -/

namespace WireHandlerFrame

def entriesFrom : List (HandlerEntry Code Scheme) → InternCtx Code Scheme →
    Except String (List (String × SerialValue Code × Option Scheme) × InternCtx Code Scheme)
  | [], ctx => .ok ([], ctx)
  | entry :: rest, ctx =>
    match ctx.fromRuntime entry.thunk with
    | .error e => .error e
    | .ok (thunk, ctx) =>
      match entriesFrom rest ctx with
      | .error e => .error e
      | .ok (rest, ctx) => .ok ((entry.name, thunk, entry.scheme) :: rest, ctx)

def catchAllFrom : Option (Value Code) → InternCtx Code Scheme →
    Except String (Option (SerialValue Code) × InternCtx Code Scheme)
  | none, ctx => .ok (none, ctx)
  | some v, ctx =>
    match ctx.fromRuntime v with
    | .error e => .error e
    | .ok (v, ctx) => .ok (some v, ctx)

def fromRuntime (frame : HandlerFrame Code Scheme) (ctx : InternCtx Code Scheme) :
    Except String (WireHandlerFrame Code Scheme × InternCtx Code Scheme) :=
  match entriesFrom frame.entries ctx with
  | .error e => .error e
  | .ok (entries, ctx) =>
    match catchAllFrom frame.catchAll ctx with
    | .error e => .error e
    | .ok (catchAll, ctx) => .ok (⟨entries, catchAll, frame.kind⟩, ctx)

def framesFrom : List (HandlerFrame Code Scheme) → InternCtx Code Scheme →
    Except String (List (WireHandlerFrame Code Scheme) × InternCtx Code Scheme)
  | [], ctx => .ok ([], ctx)
  | frame :: rest, ctx =>
    match fromRuntime frame ctx with
    | .error e => .error e
    | .ok (frame, ctx) =>
      match framesFrom rest ctx with
      | .error e => .error e
      | .ok (rest, ctx) => .ok (frame :: rest, ctx)

end WireHandlerFrame

def EngineSeed.encode (fuel : ℕ) (m : Memory Code Scheme) (bequest : Bequest Code Scheme Held Rest) :
    Option (Except String (EngineSeed Code Scheme Held Rest)) :=
  let interned := InternCtx.new.internEnv bequest.env
  match WireHandlerFrame.framesFrom bequest.handlers interned.2 with
  | .error e => some (.error e)
  | .ok (handlers, ctx) =>
    match ctx.finish m fuel with
    | none => none
    | some (.error e) => some (.error e)
    | some (.ok scopeTable) => some (.ok ⟨scopeTable, interned.1, handlers, bequest.grants, bequest.rest⟩)

/-! ## Decoding -/

namespace WireHandlerFrame

def entriesInto (dec : WireDecoder Code Scheme) :
    List (String × SerialValue Code × Option Scheme) → Except String (List (HandlerEntry Code Scheme))
  | [] => .ok []
  | (name, value, scheme) :: rest =>
    match intoRuntime value dec with
    | .error e => .error e
    | .ok v =>
      match entriesInto dec rest with
      | .error e => .error e
      | .ok rest => .ok ({ (HandlerEntry.ralPerName name v : HandlerEntry Code Scheme) with scheme := scheme } :: rest)

def catchAllInto (dec : WireDecoder Code Scheme) : Option (SerialValue Code) → Except String (Option (Value Code))
  | none => .ok none
  | some value =>
    match intoRuntime value dec with
    | .error e => .error e
    | .ok v => .ok (some v)

def intoRuntime (dec : WireDecoder Code Scheme) (frame : WireHandlerFrame Code Scheme) :
    Except String (HandlerFrame Code Scheme) :=
  match entriesInto dec frame.entries with
  | .error e => .error e
  | .ok entries =>
    match catchAllInto dec frame.catchAll with
    | .error e => .error e
    | .ok catchAll => .ok ⟨entries, catchAll, frame.kind⟩

def framesInto (dec : WireDecoder Code Scheme) :
    List (WireHandlerFrame Code Scheme) → Except String (List (HandlerFrame Code Scheme))
  | [] => .ok []
  | frame :: rest =>
    match intoRuntime dec frame with
    | .error e => .error e
    | .ok frame =>
      match framesInto dec rest with
      | .error e => .error e
      | .ok rest => .ok (frame :: rest)

end WireHandlerFrame

def failed (part e : String) : String := "seed: the seed's " ++ part ++ " failed to decode: " ++ e

/-- The bequest over the environments rebuilt for it; the grants take hold again of what
they exclude. -/
def EngineSeed.decode (manifest : BuiltinTable) (rehold : Held → Held) (seed : EngineSeed Code Scheme Held Rest) :
    Option (Except String (List (Env Code Scheme) × Bequest Code Scheme Held Rest)) :=
  match WireDecoder.forRuntime manifest seed.scopeTable with
  | none => none
  | some (.error e) => some (.error (failed "scope table" e))
  | some (.ok dec) =>
    match WireHandlerFrame.framesInto dec seed.handlers with
    | .error e => some (.error (failed "context" e))
    | .ok handlers =>
      match dec.env seed.env with
      | .error e => some (.error (failed "captured environment" e))
      | .ok env => some (.ok (dec.heap, ⟨env, handlers, rehold seed.grants, seed.rest⟩))

/-! ## What a frame holds -/

namespace HandlerFrame

/-- Each entry's thunk, then the catch-all. -/
def values (frame : HandlerFrame Code Scheme) : List (Value Code) :=
  frame.entries.map HandlerEntry.thunk ++ frame.catchAll.toList

def relocate (g : ℕ → ℕ) (frame : HandlerFrame Code Scheme) : HandlerFrame Code Scheme where
  entries := frame.entries.map fun entry => { entry with thunk := entry.thunk.relocate g }
  catchAll := frame.catchAll.map (Value.relocate g)
  kind := frame.kind

/-- Its values cross, and its entries are as `ralPerName` makes them. -/
structure Sendable (table : BuiltinTable) (frame : HandlerFrame Code Scheme) : Prop where
  unary : ∀ entry ∈ frame.entries, entry.arity = .unary
  cross : ∀ v ∈ frame.values, v.crosses table
  formed : ∀ v ∈ frame.values, v.formed

def captured (frame : HandlerFrame Code Scheme) : List ℕ := frame.values.flatMap Value.captured

theorem captured_eq (frame : HandlerFrame Code Scheme) :
    frame.captured = (frame.entries.map HandlerEntry.thunk).flatMap Value.captured ++
      frame.catchAll.toList.flatMap Value.captured := List.flatMap_append

end HandlerFrame

def serialFrame (f : ℕ → UInt32) (frame : HandlerFrame Code Scheme) : WireHandlerFrame Code Scheme where
  entries := frame.entries.map fun entry => (entry.name, serial f entry.thunk, entry.scheme)
  catchAll := frame.catchAll.map (serial f)
  kind := frame.kind

end Ral.Seed
