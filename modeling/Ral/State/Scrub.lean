import Mathlib.Order.WellFounded
import Ral.Data.SortedMap
import Ral.Seed.Value

/-! # Scopes and what they capture

A scope is known by its address. Values reach scopes through data: a block holds the one it
captured, a literal the one it closed over.
-/

namespace Ral.State

open Ral.Data (I64 Finite)

section

variable {Code Scheme : Type}

/-- `Code` is the text of a block or a literal, which the scrub never looks into. -/
inductive Value (Code : Type)
  | unit
  | bool (b : Bool)
  | int (n : I64)
  | float (f : Finite)
  | string (s : String)
  | bytes (bs : List UInt8)
  | list (items : List (Value Code))
  | listLiteral (node : Code) (env : ℕ)
  | map (entries : List (String × Value Code))
  | mapLiteral (node : Code) (env : ℕ)
  | variant (label : String) (payload : Option (Value Code))
  | thunk (comp : Code) (env : ℕ)
  | native (entry : Seed.BuiltinEntry)
  | handle

def Value.placeholder : Value Code := .variant "opaque" (some (.map [("type", .string "handle")]))

structure Binding (Code Scheme : Type) where
  value : Value Code
  scheme : Option Scheme

/-- In the order iteration yields them, each name once. -/
abbrev Env (Code Scheme : Type) := List (String × Binding Code Scheme)

namespace Env

def binding (env : Env Code Scheme) (name : String) : Option (Binding Code Scheme) :=
  (env.find? fun e => e.1 = name).map Prod.snd

/-- Replaces a name's binding where it stands; where a new name comes in the order is not told. -/
def bind (env : Env Code Scheme) (name : String) (b : Binding Code Scheme) : Env Code Scheme :=
  if name ∈ env.map Prod.fst then env.map fun e => if e.1 = name then (name, b) else e
  else env ++ [(name, b)]

end Env

namespace Value

mutual

/-- The environment of every closure `v` holds, through data, never entering one. -/
def capturedScopes : Value Code → List ℕ
  | list items => capturedItems items
  | listLiteral _ env => [env]
  | map entries => capturedEntries entries
  | mapLiteral _ env => [env]
  | variant _ (some p) => capturedScopes p
  | thunk _ env => [env]
  | _ => []

def capturedItems : List (Value Code) → List ℕ
  | [] => []
  | v :: rest => capturedScopes v ++ capturedItems rest

def capturedEntries : List (String × Value Code) → List ℕ
  | [] => []
  | (_, v) :: rest => capturedScopes v ++ capturedEntries rest

end

mutual

/-- A map iterates in key order, each key once. -/
def Formed : Value Code → Prop
  | list items => FormedItems items
  | map entries => (entries.Pairwise fun a b => a.1 < b.1) ∧ FormedEntries entries
  | variant _ (some p) => Formed p
  | _ => True

def FormedItems : List (Value Code) → Prop
  | [] => True
  | v :: rest => Formed v ∧ FormedItems rest

def FormedEntries : List (String × Value Code) → Prop
  | [] => True
  | (_, v) :: rest => Formed v ∧ FormedEntries rest

end

mutual

/-- The same value, each handle its placeholder and each scope at another address. -/
def scrubbed (r : ℕ → ℕ) : Value Code → Value Code
  | list items => list (scrubbedItems r items)
  | listLiteral node env => listLiteral node (r env)
  | map entries => map (scrubbedEntries r entries)
  | mapLiteral node env => mapLiteral node (r env)
  | variant label (some p) => variant label (some (scrubbed r p))
  | thunk comp env => thunk comp (r env)
  | handle => placeholder
  | v => v

def scrubbedItems (r : ℕ → ℕ) : List (Value Code) → List (Value Code)
  | [] => []
  | v :: rest => scrubbed r v :: scrubbedItems r rest

def scrubbedEntries (r : ℕ → ℕ) : List (String × Value Code) → List (String × Value Code)
  | [] => []
  | (k, v) :: rest => (k, scrubbed r v) :: scrubbedEntries r rest

end

end Value

namespace Value

theorem capturedItems_eq (items : List (Value Code)) : capturedItems items = items.flatMap capturedScopes := by
  induction items with
  | nil => rfl
  | cons v rest ih => rw [capturedItems, ih, List.flatMap_cons]

theorem capturedEntries_eq (entries : List (String × Value Code)) :
    capturedEntries entries = entries.flatMap fun e => e.2.capturedScopes := by
  induction entries with
  | nil => rfl
  | cons e rest ih => rw [capturedEntries, ih, List.flatMap_cons]

theorem formedItems_iff {items : List (Value Code)} : FormedItems items ↔ ∀ v ∈ items, v.Formed := by
  induction items with
  | nil => simp [FormedItems]
  | cons v rest ih => simp [FormedItems, ih]

theorem formedEntries_iff {entries : List (String × Value Code)} :
    FormedEntries entries ↔ ∀ e ∈ entries, e.2.Formed := by
  induction entries with
  | nil => simp [FormedEntries]
  | cons e rest ih => simp [FormedEntries, ih]

theorem scrubbedItems_eq (r : ℕ → ℕ) (items : List (Value Code)) :
    scrubbedItems r items = items.map (scrubbed r) := by
  induction items with
  | nil => rfl
  | cons v rest ih => rw [scrubbedItems, ih, List.map_cons]

theorem scrubbedEntries_eq (r : ℕ → ℕ) (entries : List (String × Value Code)) :
    scrubbedEntries r entries = entries.map fun e => (e.1, e.2.scrubbed r) := by
  induction entries with
  | nil => rfl
  | cons e rest ih => rw [scrubbedEntries, ih, List.map_cons]

/-- Holding no other value, no scope and no handle. -/
inductive Plain : Value Code → Prop
  | unit : Plain .unit
  | bool (b : Bool) : Plain (.bool b)
  | int (n : I64) : Plain (.int n)
  | float (f : Finite) : Plain (.float f)
  | string (s : String) : Plain (.string s)
  | bytes (bs : List UInt8) : Plain (.bytes bs)
  | tag (label : String) : Plain (.variant label none)
  | native (entry : Seed.BuiltinEntry) : Plain (.native entry)

theorem induct {P : Value Code → Prop} (list : ∀ items, (∀ v ∈ items, P v) → P (.list items))
    (listLiteral : ∀ node env, P (.listLiteral node env))
    (map : ∀ entries, (∀ e ∈ entries, P e.2) → P (.map entries))
    (mapLiteral : ∀ node env, P (.mapLiteral node env)) (variant : ∀ label p, P p → P (.variant label (some p)))
    (thunk : ∀ comp env, P (.thunk comp env)) (handle : P .handle) (plain : ∀ v : Value Code, v.Plain → P v)
    (v : Value Code) : P v := by
  refine @Value.rec Code P (fun items => ∀ v ∈ items, P v) (fun entries => ∀ e ∈ entries, P e.2)
    (fun p => ∀ v ∈ p, P v) (fun e => P e.2) (plain _ .unit) (fun b => plain _ (.bool b)) (fun n => plain _ (.int n))
    (fun f => plain _ (.float f)) (fun s => plain _ (.string s)) (fun bs => plain _ (.bytes bs)) list listLiteral map
    mapLiteral ?_ thunk (fun e => plain _ (.native e)) handle (by simp) ?_ (by simp) ?_ (by simp) ?_ (fun _ _ h => h) v
  · intro label p ih
    cases p with
    | none => exact plain _ (.tag label)
    | some p => exact variant label p (ih p rfl)
  · intro v rest hv ih
    exact List.forall_mem_cons.mpr ⟨hv, ih⟩
  · intro e rest he ih
    exact List.forall_mem_cons.mpr ⟨he, ih⟩
  · intro v hv w hw
    exact Option.some.inj hw ▸ hv

end Value

def Binding.scrubbed (r : ℕ → ℕ) (b : Binding Code Scheme) : Binding Code Scheme :=
  ⟨b.value.scrubbed r, b.scheme⟩

def Env.scrubbed (r : ℕ → ℕ) (env : Env Code Scheme) : Env Code Scheme :=
  env.map fun e => (e.1, e.2.scrubbed r)

def Env.captured (env : Env Code Scheme) : List ℕ := env.flatMap fun e => e.2.value.capturedScopes

/-! ## The heap -/

/-- Scopes by address. -/
abbrev Heap (Code Scheme : Type) := List (Env Code Scheme)

/-- A scope captures scopes of the heap, and no chain of captures is endless. -/
structure Heap.Sound (heap : Heap Code Scheme) : Prop where
  distinct : ∀ env ∈ heap, (env.map Prod.fst).Nodup
  formed : ∀ env ∈ heap, ∀ e ∈ env, e.2.value.Formed
  standing : ∀ env ∈ heap, ∀ c ∈ env.captured, c < heap.length
  acyclic : WellFounded fun c a => ∃ env : Env Code Scheme, heap[a]? = some env ∧ c ∈ env.captured

/-- A handle is reached from a value through data, closures or captured literals. -/
inductive Holds (heap : Heap Code Scheme) : Value Code → Prop
  | handle : Holds heap .handle
  | item {items : List (Value Code)} {v : Value Code} : v ∈ items → Holds heap v → Holds heap (.list items)
  | entry {entries : List (String × Value Code)} {e : String × Value Code} : e ∈ entries →
      Holds heap e.2 → Holds heap (.map entries)
  | payload {label : String} {p : Value Code} : Holds heap p → Holds heap (.variant label (some p))
  | captured {v : Value Code} {a : ℕ} {env : Env Code Scheme} {e : String × Binding Code Scheme} :
      a ∈ v.capturedScopes → heap[a]? = some env → e ∈ env → Holds heap e.2.value → Holds heap v

/-- A handle is reached from some binding of a scope. -/
def HoldsAt (heap : Heap Code Scheme) (a : ℕ) : Prop :=
  ∃ env, heap[a]? = some env ∧ ∃ e ∈ env, Holds heap e.2.value

/-- A scope is reached from some roots through what scopes capture. -/
inductive Reached (heap : Heap Code Scheme) (roots : List ℕ) : ℕ → Prop
  | root {a : ℕ} : a ∈ roots → Reached heap roots a
  | captured {a c : ℕ} {env : Env Code Scheme} : Reached heap roots a → heap[a]? = some env →
      c ∈ env.captured → Reached heap roots c

end

/-! ## The bequest's scrub

Every scope reached is walked once, after all it captures, on an explicit stack, and remembered with
its replacement. Each walk that may not end takes fuel.
-/

variable {Code Scheme : Type}

/-- What a call comes to. -/
inductive Outcome (α : Type)
  | spent
  /-- A captured scope was not settled. -/
  | panicked
  | done (a : α)
deriving DecidableEq

namespace Outcome

def bind {α β : Type} (x : Outcome α) (f : α → Outcome β) : Outcome β :=
  match x with
  | spent => spent
  | panicked => panicked
  | done a => f a

instance : Monad Outcome where
  pure := done
  bind := bind

end Outcome

/-- `container` with each change put into a copy, or `none` if there is none. -/
def patched {C K V : Type} (container : C) (changes : List (K × V)) (put : C → K → V → C) : Option C :=
  if changes.isEmpty then none else some (changes.foldl (fun copy change => put copy change.1 change.2) container)

/-! ## Values -/

/-- Every scope visited, with its replacement: `none` when it reaches no handle. -/
abbrev Memo := List (ℕ × Option ℕ)

namespace Memo

def seen (memo : Memo) (scope : ℕ) : Option (Option ℕ) :=
  (memo.find? fun e => e.1 = scope).map Prod.snd

def replacement (memo : Memo) (scope : ℕ) : Outcome (Option ℕ) :=
  match memo.seen scope with
  | some replacement => .done replacement
  | none => .panicked

mutual

/-- `v` with every handle it reaches replaced, `none` if it reaches none. -/
def rebuild (memo : Memo) : Value Code → Outcome (Option (Value Code))
  | .handle => .done (some .placeholder)
  | .list items => do
      let changes ← rebuildItems memo 0 items
      pure ((patched items changes List.set).map .list)
  | .listLiteral node env => do
      let env ← memo.replacement env
      pure (env.map (.listLiteral node))
  | .map entries => do
      let changes ← rebuildEntries memo entries
      pure ((patched entries changes fun entries key new => SortedMap.insertEntry key new entries).map .map)
  | .mapLiteral node env => do
      let env ← memo.replacement env
      pure (env.map (.mapLiteral node))
  | .variant label (some payload) => do
      let payload ← rebuild memo payload
      pure (payload.map fun payload => .variant label (some payload))
  | .thunk comp env => do
      let env ← memo.replacement env
      pure (env.map (.thunk comp))
  | _ => .done none

def rebuildItems (memo : Memo) (i : ℕ) : List (Value Code) → Outcome (List (ℕ × Value Code))
  | [] => .done []
  | item :: rest => do
      let new ← rebuild memo item
      let changes ← rebuildItems memo (i + 1) rest
      pure ((new.map fun new => (i, new)).toList ++ changes)

/-- The keys whose item changes. -/
def rebuildEntries (memo : Memo) : List (String × Value Code) → Outcome (List (String × Value Code))
  | [] => .done []
  | (key, item) :: rest => do
      let new ← rebuild memo item
      let changes ← rebuildEntries memo rest
      pure ((new.map fun new => (key, new)).toList ++ changes)

end

def rebuildBindings (memo : Memo) : Env Code Scheme → Outcome (List (String × Binding Code Scheme))
  | [] => .done []
  | (name, binding) :: rest => do
      let new ← memo.rebuild binding.value
      let changes ← rebuildBindings memo rest
      pure ((new.map fun value => (name, ⟨value, binding.scheme⟩)).toList ++ changes)

end Memo

/-! ## The walk -/

/-- A scope on the walk's stack: to open, pushing every scope it captures, or to close, once they
are settled. -/
inductive Visit
  | opens (scope : ℕ)
  | closes (scope : ℕ)
deriving DecidableEq

structure Scrub (Code Scheme : Type) where
  heap : Heap Code Scheme
  memo : Memo

namespace Scrub

variable (s : Scrub Code Scheme)

def visit : Visit → Outcome (Scrub Code Scheme × List Visit)
  | .opens scope =>
    if (s.memo.seen scope).isSome then .done (s, [])
    else
      let captured := (s.heap.getD scope []).captured.filter fun c => (s.memo.seen c).isNone
      .done (s, captured.reverse.map .opens ++ [.closes scope])
  | .closes scope => do
      let changes ← s.memo.rebuildBindings (s.heap.getD scope [])
      match patched (s.heap.getD scope []) changes Env.bind with
      | none => pure (⟨s.heap, s.memo ++ [(scope, none)]⟩, [])
      | some env => pure (⟨s.heap ++ [env], s.memo ++ [(scope, some s.heap.length)]⟩, [])

def walk : ℕ → Scrub Code Scheme → List Visit → Outcome (Scrub Code Scheme)
  | 0, _, _ => .spent
  | _ + 1, s, [] => .done s
  | fuel + 1, s, v :: stack => do
      let (s, pushed) ← s.visit v
      walk fuel s (pushed ++ stack)

/-- Memoise every scope reached from `roots`, each after every scope it captures. -/
def settle (fuel : ℕ) (roots : List ℕ) : Outcome (Scrub Code Scheme) :=
  walk fuel s (roots.reverse.map .opens)

/-- `root`'s replacement, `none` if it reaches no handle. -/
def scope (fuel root : ℕ) : Outcome (Scrub Code Scheme × Option ℕ) := do
  let s ← s.settle fuel [root]
  let replacement ← s.memo.replacement root
  pure (s, replacement)

/-- `v`'s replacement, `none` if it reaches no handle. -/
def value (fuel : ℕ) (v : Value Code) : Outcome (Scrub Code Scheme × Option (Value Code)) := do
  let s ← s.settle fuel v.capturedScopes
  let new ← s.memo.rebuild v
  pure (s, new)

end Scrub

/-! ## The bequest -/

inductive HandlerArity
  | catchAll
  | unary
deriving DecidableEq

inductive FrameKind
  | within
  | alias
deriving DecidableEq

structure HandlerEntry (Code Scheme : Type) where
  name : String
  arity : HandlerArity
  thunk : Value Code
  scheme : Option Scheme

structure HandlerFrame (Code Scheme : Type) where
  entries : List (HandlerEntry Code Scheme)
  catchAll : Option (Value Code)
  kind : FrameKind

/-- What of a shell the bequest takes: its scope, its handler frames and the rest. -/
structure Shell (Code Scheme Rest : Type) where
  heap : Heap Code Scheme
  env : ℕ
  handlers : List (HandlerFrame Code Scheme)
  rest : Rest

structure Bequest (Code Scheme Rest Grant : Type) extends Shell Code Scheme Rest where
  grant : Grant

namespace Scrub

variable (fuel : ℕ)

def inPlace (s : Scrub Code Scheme) (v : Value Code) : Outcome (Scrub Code Scheme × Value Code) := do
  let (s, new) ← s.value fuel v
  pure (s, new.getD v)

def entries : Scrub Code Scheme → List (HandlerEntry Code Scheme) →
    Outcome (Scrub Code Scheme × List (HandlerEntry Code Scheme))
  | s, [] => .done (s, [])
  | s, entry :: rest => do
      let (s, thunk) ← s.inPlace fuel entry.thunk
      let (s, rest) ← entries s rest
      pure (s, { entry with thunk } :: rest)

def frame (s : Scrub Code Scheme) (frame : HandlerFrame Code Scheme) :
    Outcome (Scrub Code Scheme × HandlerFrame Code Scheme) := do
  let (s, entries) ← s.entries fuel frame.entries
  match frame.catchAll with
  | none => pure (s, { frame with entries })
  | some v =>
    let (s, v) ← s.inPlace fuel v
    pure (s, { frame with entries, catchAll := some v })

def frames : Scrub Code Scheme → List (HandlerFrame Code Scheme) →
    Outcome (Scrub Code Scheme × List (HandlerFrame Code Scheme))
  | s, [] => .done (s, [])
  | s, frame :: rest => do
      let (s, frame) ← s.frame fuel frame
      let (s, rest) ← frames s rest
      pure (s, frame :: rest)

end Scrub

/-- What a child takes: this session's scope and handler frames with every handle scrubbed. -/
def Shell.bequeath {Rest Grant : Type} (shell : Shell Code Scheme Rest) (fuel : ℕ) (grant : Grant) :
    Outcome (Bequest Code Scheme Rest Grant) := do
  let scrub : Scrub Code Scheme := ⟨shell.heap, []⟩
  let (scrub, env) ← scrub.scope fuel shell.env
  let (scrub, frames) ← scrub.frames fuel shell.handlers
  pure ⟨⟨scrub.heap, env.getD shell.env, frames, shell.rest⟩, grant⟩

end Ral.State
