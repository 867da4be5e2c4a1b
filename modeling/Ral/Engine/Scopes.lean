import Ral.Process.Mask
import Ral.Process.Cancel

/-! # What stops an engine's runs

The scopes of one engine: its durable root, the node its dispatches hang off, and the slot strikes
land in. Each operation holds the slot's lock, so they come one at a time, in any order.
-/

namespace Ral

namespace Process

namespace CancelCause

def strongest (a b : CancelCause) : CancelCause := if a.asU8 ≤ b.asU8 then b else a

theorem asU8_strongest (a b : CancelCause) : (strongest a b).asU8 = Max.max a.asU8 b.asU8 := by
  unfold strongest
  split
  · next h => exact (Nat.max_eq_right h).symm
  · next h => exact (Nat.max_eq_left (Nat.le_of_not_le h)).symm

end CancelCause

namespace World

/-- `ScopeNode::cancel`: the instant first, then the flag. -/
def cancel (w : World) (i : ℕ) (cause : CancelCause) : World :=
  (w.update i (·.stamp w.clock) fun v => v.later_stamp w.clock).update i (·.raise cause)
    fun v => v.later_raise cause

def flagAt (w : World) (i : ℕ) : ℕ := w.nodes[i]?.elim 0 Vertex.flag

def look (w : World) (scope : ℕ) : List Sight :=
  (w.chain scope).filterMap fun i => w.nodes[i]?.map fun v => ⟨i, v.shield, w.clock, v.flag, v.cancelledAt⟩

/-- `Scope::cause`: the cause in force on a scope. -/
def cause (w : World) (scope : ℕ) : Option CancelCause := (inForce (w.look scope)).join.map Prod.fst

theorem later_cancel (w : World) (i : ℕ) (cause : CancelCause) : w.Later (w.cancel i cause) :=
  (w.later_update i _).trans (later_update _ i _)

theorem length_cancel (w : World) (i : ℕ) (cause : CancelCause) :
    (w.cancel i cause).nodes.length = w.nodes.length := by
  simp [cancel, update]

theorem getElem?_cancel_of_ne (w : World) {i j : ℕ} (cause : CancelCause) (h : i ≠ j) :
    (w.cancel i cause).nodes[j]? = w.nodes[j]? := by
  simp [cancel, update, h]

theorem flagAt_cancel_of_ne (w : World) {i j : ℕ} (cause : CancelCause) (h : i ≠ j) :
    (w.cancel i cause).flagAt j = w.flagAt j := by
  rw [flagAt, flagAt, w.getElem?_cancel_of_ne cause h]

theorem flagAt_cancel (w : World) {i : ℕ} (cause : CancelCause) (h : i < w.nodes.length) :
    (w.cancel i cause).flagAt i = max (w.flagAt i) cause.asU8 := by
  have hget : w.nodes[i]? = some w.nodes[i] := List.getElem?_eq_getElem h
  simp [flagAt, cancel, update, hget, Vertex.raise, Vertex.stamp]

theorem flagAt_mint (w : World) {parent shield : Option ℕ} (stands : ∀ p ∈ parent, p < w.nodes.length)
    (i : ℕ) : (w.mint parent shield stands).flagAt i = w.flagAt i := by
  unfold flagAt
  rcases Nat.lt_trichotomy i w.nodes.length with h | h | h
  · simp [mint, List.getElem?_append_left h]
  · subst h
    simp [mint, Vertex.fresh]
  · rw [List.getElem?_eq_none (by simp [mint]; omega), List.getElem?_eq_none (by omega)]

theorem sound_look (w : World) (scope : ℕ) : ∀ s ∈ w.look scope, s.Sound := by
  intro s hs
  obtain ⟨i, _, hi⟩ := List.mem_filterMap.mp hs
  obtain ⟨v, _, rfl⟩ := Option.map_eq_some_iff.mp hi
  exact ⟨v.causes, v.struck⟩

theorem look_cons {w : World} {i : ℕ} {v : Vertex} (h : w.nodes[i]? = some v) :
    ∃ above, w.look i = ⟨i, v.shield, w.clock, v.flag, v.cancelledAt⟩ :: above := by
  cases hp : v.parent with
  | none => exact ⟨_, by rw [look, chain_root h hp, List.filterMap_cons, h]; rfl⟩
  | some p => exact ⟨_, by rw [look, chain_child h hp, List.filterMap_cons, h]; rfl⟩

theorem flagAt_le_rank (w : World) (i : ℕ) :
    ∃ found, inForce (w.look i) = some found ∧ w.flagAt i ≤ rank found := by
  obtain ⟨found, hfound, hnames⟩ := inForce_names (w.sound_look i)
  refine ⟨found, hfound, ?_⟩
  cases hv : w.nodes[i]? with
  | none => simp [flagAt, hv]
  | some v =>
    obtain ⟨above, hlook⟩ := look_cons hv
    by_cases hflag : v.flag = 0
    · simp [flagAt, hv, hflag]
    · obtain ⟨instant, hinstant⟩ := Option.isSome_iff_exists.mp (v.struck hflag)
      have hmem : (⟨i, v.flag, instant⟩ : Strike) ∈ unmasked (w.look i) := by
        rw [hlook, unmasked]
        apply List.mem_append_left
        simp [Sight.struck, hflag, hinstant]
      simpa [flagAt, hv] using hnames.le_rank hmem

theorem cause_root {w : World} {i : ℕ} {v : Vertex} (h : w.nodes[i]? = some v) (hp : v.parent = none) :
    w.cause i = CancelCause.fromRepr v.flag := by
  have hlook : w.look i = [⟨i, v.shield, w.clock, v.flag, v.cancelledAt⟩] := by
    rw [look, chain_root h hp]
    simp [h]
  unfold cause inForce
  rw [hlook, resolve_cons, resolve_nil]
  by_cases hflag : v.flag = 0
  · simp [Sight.meet, hflag, CancelCause.fromRepr]
  · obtain ⟨instant, hinstant⟩ := Option.isSome_iff_exists.mp (v.struck hflag)
    obtain ⟨c, hc, _⟩ := CancelCause.fromRepr_of_pos hflag v.causes
    simp [Sight.meet, hflag, hinstant, hc]

end World

end Process

namespace Engine
open Process

abbrev DispatchId : Type := ℕ

/-! ## Scopes -/

structure Slot where
  /-- The dispatch a strike names. Replaced, never cleared. -/
  current : Option (DispatchId × ℕ)
  foretold : Option (DispatchId × CancelCause)

/-- A strike remembered for a dispatch not open, strengthened if it was remembered before. -/
def Slot.foretell (slot : Slot) (id : DispatchId) (cause : CancelCause) : Slot where
  current := slot.current
  foretold := some (id, match slot.foretold with
    | some (pending, prior) => if pending = id then prior.strongest cause else cause
    | none => cause)

/-- What stops an engine's runs; scopes are places in the arena. -/
structure Scopes where
  world : World
  dispatches : ℕ
  root : ℕ
  slot : Slot
  anchored : dispatches < world.nodes.length
  durable : ∃ v, world.nodes[root]? = some v ∧ v.parent = none

namespace Scopes

theorem rooted (s : Scopes) : s.root < s.world.nodes.length := by
  obtain ⟨v, hv, _⟩ := s.durable
  exact (List.getElem?_eq_some_iff.mp hv).1

def advance (s : Scopes) (w : World) (slot : Slot) (later : s.world.Later w) : Scopes where
  world := w
  dispatches := s.dispatches
  root := s.root
  slot := slot
  anchored := later.standing s.anchored
  durable := by
    obtain ⟨v, hv, hp⟩ := s.durable
    obtain ⟨v', hv', hlater⟩ := later.nodes _ _ hv
    exact ⟨v', hv', hlater.parent.trans hp⟩

def struckBy (w : World) (node : ℕ) : Option CancelCause → World
  | none => w
  | some cause => w.cancel node cause

theorem later_struckBy (w : World) (node : ℕ) (cause : Option CancelCause) :
    w.Later (struckBy w node cause) := by
  cases cause with
  | none => exact .refl w
  | some cause => exact w.later_cancel node cause

theorem length_struckBy (w : World) (node : ℕ) (cause : Option CancelCause) :
    (struckBy w node cause).nodes.length = w.nodes.length := by
  cases cause with
  | none => rfl
  | some cause => exact w.length_cancel node cause

theorem hangs (s : Scopes) (within : Option ℕ) (stands : ∀ p ∈ within, p < s.world.nodes.length) :
    ∀ p ∈ some (within.getD s.dispatches), p < s.world.nodes.length := by
  intro p hp
  cases hp
  cases within with
  | none => exact s.anchored
  | some p => exact stands p rfl

/-- Mint `id`'s node ahead of its run's frame, struck already if the root is or a strike foretold
it. -/
def openFor (s : Scopes) (id : DispatchId) (within : Option ℕ)
    (stands : ∀ p ∈ within, p < s.world.nodes.length) : Scopes :=
  let node := s.world.nodes.length
  let minted := s.world.mint (some (within.getD s.dispatches)) none (s.hangs within stands)
  let ended := struckBy minted node (minted.cause s.root)
  let taken := s.slot.foretold.filter fun pending => pending.1 = id
  let struck := struckBy ended node (taken.map Prod.snd)
  s.advance struck ⟨some (id, node), if taken.isSome then none else s.slot.foretold⟩
    (((s.world.later_mint (s.hangs within stands)).trans (later_struckBy _ _ _)).trans (later_struckBy _ _ _))

def aim (s : Scopes) (id : DispatchId) (cause : CancelCause) : Scopes :=
  match s.slot.current with
  | some (current, node) =>
    if current = id then s.advance (s.world.cancel node cause) s.slot (s.world.later_cancel node cause)
    else { s with slot := s.slot.foretell id cause }
  | none => { s with slot := s.slot.foretell id cause }

def endRoot (s : Scopes) (cause : CancelCause) : Scopes :=
  let ended := s.world.cancel s.root cause
  match s.slot.current with
  | some (_, node) => s.advance (ended.cancel node cause) s.slot
      ((s.world.later_cancel _ _).trans (ended.later_cancel _ _))
  | none => s.advance ended s.slot (s.world.later_cancel _ _)

/-- What the slot remembers for a dispatch, `0` for nothing. -/
def memory (s : Scopes) (id : DispatchId) : ℕ :=
  match s.slot.foretold with
  | some (pending, cause) => if pending = id then cause.asU8 else 0
  | none => 0

end Scopes

/-! ## Runs -/

/-- What came to an engine's scopes. -/
inductive Event
  | opened (id : DispatchId) (node : ℕ)
  | struck (id : DispatchId) (cause : CancelCause)
  | ended (cause : CancelCause)

def opened (events : List Event) : List DispatchId := events.filterMap fun
  | .opened id _ => some id
  | _ => none

def struck (events : List Event) (id : DispatchId) : ℕ := events.foldr (fun
  | .struck other cause, n => if other = id then max cause.asU8 n else n
  | _, n => n) 0

def ended (events : List Event) : ℕ := events.foldr (fun
  | .ended cause, n => max cause.asU8 n
  | _, n => n) 0

/-- The nodes only the engine's scopes write: the root and those of its dispatches. -/
def Owned (s : Scopes) (events : List Event) (i : ℕ) : Prop := i = s.root ∨ ∃ id, .opened id i ∈ events

/-- Every interleaving of openings, strikes and endings with what else happens in the arena. Each
dispatch has an id of its own; `admits` is asked of a strike. -/
inductive Runs (admits : List Event → Scopes → DispatchId → Prop) (start : Scopes) :
    List Event → Scopes → Prop
  | start : Runs admits start [] start
  | opened {events : List Event} {s : Scopes} (id : DispatchId) (within : Option ℕ)
      (stands : ∀ p ∈ within, p < s.world.nodes.length) : Runs admits start events s →
      id ∉ opened events →
      Runs admits start (events ++ [.opened id s.world.nodes.length]) (s.openFor id within stands)
  | struck {events : List Event} {s : Scopes} (id : DispatchId) (cause : CancelCause) :
      Runs admits start events s → admits events s id →
      Runs admits start (events ++ [.struck id cause]) (s.aim id cause)
  | ended {events : List Event} {s : Scopes} (cause : CancelCause) : Runs admits start events s →
      Runs admits start (events ++ [.ended cause]) (s.endRoot cause)
  | other {events : List Event} {s : Scopes} {w : World} (step : Step s.world w) :
      Runs admits start events s → (∀ i, Owned s events i → w.nodes[i]? = s.world.nodes[i]?) →
      Runs admits start events (s.advance w s.slot step.later)

end Engine

end Ral
