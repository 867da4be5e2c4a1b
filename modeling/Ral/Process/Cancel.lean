import Mathlib.Data.List.Basic
import Mathlib.Logic.Relation

/-! # Cooperative cancellation

Scope nodes under a session root: minting, the one write of a node's owner, and the
walk that reads what is in force on a scope. A writer and a reader interleave freely:
each atomic access is a step or a reading of its own. Instants and durations are ℕ.
-/

namespace Ral.Process

/-- Why a scope was cancelled, escalating. -/
inductive CancelCause
  | readerGone
  | interrupted
  | cancelled
  | timedOut
  | terminated
  | aborted
deriving DecidableEq

namespace CancelCause

/-- The on-flag encoding, `0` meaning uncancelled. -/
def asU8 : CancelCause → ℕ
  | readerGone => 1
  | interrupted => 2
  | cancelled => 3
  | timedOut => 4
  | terminated => 5
  | aborted => 6

def fromRepr : ℕ → Option CancelCause
  | 1 => some readerGone
  | 2 => some interrupted
  | 3 => some cancelled
  | 4 => some timedOut
  | 5 => some terminated
  | 6 => some aborted
  | _ => none

theorem asU8_le (cause : CancelCause) : cause.asU8 ≤ aborted.asU8 := by
  cases cause <;> decide

theorem fromRepr_of_pos {flag : ℕ} (pos : flag ≠ 0) (le : flag ≤ aborted.asU8) :
    ∃ cause, fromRepr flag = some cause ∧ cause.asU8 = flag := by
  have bound : flag = 1 ∨ flag = 2 ∨ flag = 3 ∨ flag = 4 ∨ flag = 5 ∨ flag = 6 := by
    have six : flag ≤ 6 := le
    omega
  rcases bound with rfl | rfl | rfl | rfl | rfl | rfl
  all_goals exact ⟨_, rfl, rfl⟩

end CancelCause

/-! ## Nodes -/

/-- A scope's node; a parent is a place in the arena. -/
structure Vertex where
  flag : ℕ
  cancelledAt : Option ℕ
  parent : Option ℕ
  shield : Option ℕ
  causes : flag ≤ CancelCause.aborted.asU8
  struck : flag ≠ 0 → cancelledAt.isSome
deriving DecidableEq

namespace Vertex

def fresh (parent shield : Option ℕ) : Vertex :=
  ⟨0, none, parent, shield, by decide, fun h => absurd rfl h⟩

def stamp (v : Vertex) (instant : ℕ) : Vertex :=
  { v with
    cancelledAt := some (v.cancelledAt.getD instant)
    struck := fun _ => rfl }

def raise (v : Vertex) (cause : CancelCause) : Vertex :=
  if stamped : v.cancelledAt.isSome then
    { v with
      flag := max v.flag cause.asU8
      causes := Nat.max_le.mpr ⟨v.causes, cause.asU8_le⟩
      struck := fun _ => stamped }
  else v

/-- What no step takes back of a node. -/
structure Later (v v' : Vertex) : Prop where
  parent : v'.parent = v.parent
  shield : v'.shield = v.shield
  flag : v.flag ≤ v'.flag
  cancelledAt : ∀ at' ∈ v.cancelledAt, v'.cancelledAt = some at'

theorem Later.refl (v : Vertex) : v.Later v :=
  ⟨rfl, rfl, Nat.le_refl _, fun _ h => h⟩

theorem Later.trans {a b c : Vertex} (hab : a.Later b) (hbc : b.Later c) : a.Later c where
  parent := hbc.parent.trans hab.parent
  shield := hbc.shield.trans hab.shield
  flag := Nat.le_trans hab.flag hbc.flag
  cancelledAt := fun at' h => hbc.cancelledAt at' (hab.cancelledAt at' h)

theorem later_stamp (v : Vertex) (instant : ℕ) : v.Later (v.stamp instant) where
  parent := rfl
  shield := rfl
  flag := Nat.le_refl _
  cancelledAt := by
    intro at' h
    rw [Option.mem_def] at h
    simp [stamp, h]

theorem later_raise (v : Vertex) (cause : CancelCause) : v.Later (v.raise cause) := by
  unfold raise
  split
  · exact ⟨rfl, rfl, Nat.le_max_left _ _, fun _ h => h⟩
  · exact Later.refl v

end Vertex

/-! ## The arena and its steps -/

/-- The clock, and every node ever minted, oldest first. -/
structure World where
  clock : ℕ
  nodes : List Vertex
  rooted : ∀ (i : ℕ) (v : Vertex), nodes[i]? = some v → ∀ p ∈ v.parent, p < i
deriving DecidableEq

namespace World

def empty : World := ⟨0, [], by simp⟩

/-- `iter::successors` over the parents: the scope first, its root last. -/
def successors (nodes : List Vertex) : ℕ → ℕ → List ℕ
  | 0, _ => []
  | fuel + 1, i =>
    match nodes[i]? with
    | none => []
    | some v =>
      match v.parent with
      | none => [i]
      | some p => i :: successors nodes fuel p

def chain (w : World) (scope : ℕ) : List ℕ := successors w.nodes (scope + 1) scope

def shieldOf (w : World) (i : ℕ) : Option ℕ := w.nodes[i]?.bind (·.shield)

/-- The grace asked for, or the nearest enclosing shield's if that is shorter. -/
def narrowed (w : World) (parent grace : ℕ) : ℕ :=
  match (w.chain parent).findSome? w.shieldOf with
  | none => grace
  | some enclosing => min enclosing grace

def tick (w : World) (d : ℕ) : World := { w with clock := w.clock + d }

def mint (w : World) (parent shield : Option ℕ) (stands : ∀ p ∈ parent, p < w.nodes.length) :
    World where
  clock := w.clock
  nodes := w.nodes ++ [Vertex.fresh parent shield]
  rooted := by
    intro i v h p hp
    by_cases old : i < w.nodes.length
    · rw [List.getElem?_append_left old] at h
      exact w.rooted i v h p hp
    · rw [List.getElem?_append_right (by omega), List.getElem?_singleton] at h
      split at h
      · cases h
        have := stands p hp
        omega
      · cases h

def update (w : World) (i : ℕ) (f : Vertex → Vertex) (keeps : ∀ v : Vertex, v.Later (f v)) : World where
  clock := w.clock
  nodes := w.nodes.modify i f
  rooted := by
    intro j v h p hp
    rw [List.getElem?_modify] at h
    cases old : w.nodes[j]? with
    | none => simp [old] at h
    | some u =>
      simp only [old, Option.map_eq_map, Option.map_some, Option.some.injEq] at h
      subst h
      refine w.rooted j u old p ?_
      split at hp
      · rwa [(keeps u).parent] at hp
      · exact hp

end World

/-- One act of the runtime: the clock, a fresh node, or half of a `cancel`. -/
inductive Step : World → World → Prop
  | tick (w : World) (d : ℕ) : Step w (w.tick d)
  | root (w : World) : Step w (w.mint none none (by simp))
  | child (w : World) (p : ℕ) (stands : ∀ q ∈ some p, q < w.nodes.length) :
      Step w (w.mint (some p) none stands)
  | shielded (w : World) (p grace : ℕ) (stands : ∀ q ∈ some p, q < w.nodes.length) :
      Step w (w.mint (some p) (some (w.narrowed p grace)) stands)
  -- The writer read its clock in an earlier step: other steps may lie between.
  | stamp (w : World) (i instant : ℕ) (read : instant ≤ w.clock) :
      Step w (w.update i (·.stamp instant) fun v => v.later_stamp instant)
  | raise (w : World) (i : ℕ) (cause : CancelCause)
      (stamped : ∀ v ∈ w.nodes[i]?, v.cancelledAt.isSome) :
      Step w (w.update i (·.raise cause) fun v => v.later_raise cause)

abbrev Steps : World → World → Prop := Relation.ReflTransGen Step

def Reachable (w : World) : Prop := Steps World.empty w

/-! ## What no step takes back -/

/-- The clock only advances, and every node stands and only rises. -/
structure World.Later (w w' : World) : Prop where
  clock : w.clock ≤ w'.clock
  nodes : ∀ (i : ℕ) (v : Vertex), w.nodes[i]? = some v → ∃ v', w'.nodes[i]? = some v' ∧ v.Later v'

namespace World

theorem Later.refl (w : World) : w.Later w :=
  ⟨Nat.le_refl _, fun _ v h => ⟨v, h, Vertex.Later.refl v⟩⟩

theorem Later.trans {a b c : World} (hab : a.Later b) (hbc : b.Later c) : a.Later c where
  clock := Nat.le_trans hab.clock hbc.clock
  nodes := by
    intro i v h
    obtain ⟨v', h', hv⟩ := hab.nodes i v h
    obtain ⟨v'', h'', hv'⟩ := hbc.nodes i v' h'
    exact ⟨v'', h'', hv.trans hv'⟩

theorem later_mint (w : World) {parent shield : Option ℕ}
    (stands : ∀ p ∈ parent, p < w.nodes.length) : w.Later (w.mint parent shield stands) where
  clock := Nat.le_refl _
  nodes := by
    intro i v h
    have old : i < w.nodes.length := (List.getElem?_eq_some_iff.mp h).1
    refine ⟨v, ?_, Vertex.Later.refl v⟩
    show (w.nodes ++ _)[i]? = some v
    rw [List.getElem?_append_left old, h]

theorem later_update (w : World) (i : ℕ) {f : Vertex → Vertex} (keeps : ∀ v : Vertex, v.Later (f v)) :
    w.Later (w.update i f keeps) where
  clock := Nat.le_refl _
  nodes := by
    intro j v h
    by_cases same : i = j
    · exact ⟨f v, by simp [update, h, same], keeps v⟩
    · exact ⟨v, by simp [update, h, same], Vertex.Later.refl v⟩

end World

theorem Step.later {w w' : World} (step : Step w w') : w.Later w' := by
  cases step with
  | tick d => exact ⟨Nat.le_add_right _ d, (World.Later.refl w).nodes⟩
  | root => exact w.later_mint _
  | child p stands => exact w.later_mint stands
  | shielded p grace stands => exact w.later_mint stands
  | stamp i instant read => exact w.later_update i _
  | raise i cause stamped => exact w.later_update i _

theorem Steps.later {w w' : World} (steps : Steps w w') : w.Later w' := by
  induction steps with
  | refl => exact World.Later.refl w
  | tail _ step ih => exact ih.trans step.later

/-! ## Chains -/

namespace World

theorem successors_fuel (w : World) {fuel more i : ℕ} (enough : i < fuel) (le : fuel ≤ more) :
    successors w.nodes more i = successors w.nodes fuel i := by
  induction fuel generalizing more i with
  | zero => omega
  | succ fuel ih =>
    obtain ⟨more, rfl⟩ : ∃ m, more = m + 1 := ⟨more - 1, by omega⟩
    cases h : w.nodes[i]? with
    | none => simp [successors, h]
    | some v =>
      cases hp : v.parent with
      | none => simp [successors, h, hp]
      | some p =>
        have below : p < i := w.rooted i v h p hp
        have rest := ih (show p < fuel by omega) (show fuel ≤ more by omega)
        simp [successors, h, hp, rest]

theorem chain_root {w : World} {i : ℕ} {v : Vertex} (h : w.nodes[i]? = some v)
    (hp : v.parent = none) : w.chain i = [i] := by
  simp [chain, successors, h, hp]

theorem chain_child {w : World} {i p : ℕ} {v : Vertex} (h : w.nodes[i]? = some v)
    (hp : v.parent = some p) : w.chain i = i :: w.chain p := by
  have below : p < i := w.rooted i v h p hp
  have rest : successors w.nodes i p = successors w.nodes (p + 1) p :=
    w.successors_fuel (Nat.lt_succ_self p) below
  simp [chain, successors, h, hp, rest]

theorem chain_dead {w : World} {i : ℕ} (h : w.nodes[i]? = none) : w.chain i = [] := by
  simp [chain, successors, h]

theorem Later.standing {w w' : World} (later : w.Later w') {i : ℕ} (h : i < w.nodes.length) :
    i < w'.nodes.length := by
  obtain ⟨v', h', -⟩ := later.nodes i w.nodes[i] (List.getElem?_eq_getElem h)
  exact (List.getElem?_eq_some_iff.mp h').1

theorem Later.chain {w w' : World} (later : w.Later w') {i : ℕ} (h : i < w.nodes.length) :
    w'.chain i = w.chain i := by
  induction i using Nat.strongRecOn with
  | _ i ih =>
    have stands : w.nodes[i]? = some w.nodes[i] := List.getElem?_eq_getElem h
    obtain ⟨v', stands', hv⟩ := later.nodes i _ stands
    cases hp : w.nodes[i].parent with
    | none => rw [chain_root stands hp, chain_root stands' (hv.parent.trans hp)]
    | some p =>
      have below : p < i := w.rooted i _ stands p hp
      rw [chain_child stands hp, chain_child stands' (hv.parent.trans hp),
        ih p below (by omega)]

theorem mem_chain {w : World} {i j : ℕ} (h : j ∈ w.chain i) : j < w.nodes.length := by
  induction i using Nat.strongRecOn with
  | _ i ih =>
    cases stands : w.nodes[i]? with
    | none => simp [chain_dead stands] at h
    | some v =>
      have live : i < w.nodes.length := (List.getElem?_eq_some_iff.mp stands).1
      cases hp : v.parent with
      | none =>
        rw [chain_root stands hp, List.mem_singleton] at h
        omega
      | some p =>
        rw [chain_child stands hp, List.mem_cons] at h
        rcases h with rfl | h
        · exact live
        · exact ih p (w.rooted i v stands p hp) h

theorem Later.shieldOf {w w' : World} (later : w.Later w') {i : ℕ} (h : i < w.nodes.length) :
    w'.shieldOf i = w.shieldOf i := by
  obtain ⟨v', stands', hv⟩ := later.nodes i _ (List.getElem?_eq_getElem h)
  simp [World.shieldOf, stands', List.getElem?_eq_getElem h, hv.shield]

/-! ## Graces narrow -/

def graces (w : World) (scope : ℕ) : List ℕ := (w.chain scope).filterMap w.shieldOf

/-- No shield is granted longer than one around it. -/
def Narrowing (w : World) : Prop := ∀ i, (w.graces i).Pairwise (· ≤ ·)

theorem Later.graces {w w' : World} (later : w.Later w') {i : ℕ} (h : i < w.nodes.length) :
    w'.graces i = w.graces i := by
  unfold World.graces
  rw [later.chain h]
  apply List.filterMap_congr
  intro j hj
  exact later.shieldOf (mem_chain hj)

theorem graces_dead {w : World} {i : ℕ} (h : w.nodes[i]? = none) : w.graces i = [] := by
  simp [graces, chain_dead h]

theorem graces_child {w : World} {i p : ℕ} {v : Vertex} (h : w.nodes[i]? = some v)
    (hp : v.parent = some p) : w.graces i = v.shield.toList ++ w.graces p := by
  have own : w.shieldOf i = v.shield := by simp [shieldOf, h]
  unfold graces
  rw [chain_child h hp]
  cases hs : v.shield <;> simp [own, hs]

theorem graces_root {w : World} {i : ℕ} {v : Vertex} (h : w.nodes[i]? = some v)
    (hp : v.parent = none) : w.graces i = v.shield.toList := by
  have own : w.shieldOf i = v.shield := by simp [shieldOf, h]
  unfold graces
  rw [chain_root h hp]
  cases hs : v.shield <;> simp [own, hs]

theorem narrowed_le {w : World} (narrowing : w.Narrowing) (p grace : ℕ) {e : ℕ}
    (h : e ∈ w.graces p) : w.narrowed p grace ≤ e := by
  have sorted := narrowing p
  have first : (w.chain p).findSome? w.shieldOf = (w.graces p).head? := by
    rw [graces, ← List.head?_filterMap]
  unfold narrowed
  rw [first]
  cases hg : w.graces p with
  | nil => simp [hg] at h
  | cons nearest above =>
    rw [hg] at h sorted
    have least : nearest ≤ e := by
      rcases List.mem_cons.mp h with rfl | h
      · exact Nat.le_refl _
      · exact (List.pairwise_cons.mp sorted).1 e h
    exact Nat.le_trans (Nat.min_le_left _ _) least

theorem mint_old {w : World} {parent shield : Option ℕ}
    (stands : ∀ p ∈ parent, p < w.nodes.length) {i : ℕ} {v : Vertex}
    (h : (w.mint parent shield stands).nodes[i]? = some v) :
    i < w.nodes.length ∨ (i = w.nodes.length ∧ v = Vertex.fresh parent shield) := by
  by_cases old : i < w.nodes.length
  · exact .inl old
  · have bound := (List.getElem?_eq_some_iff.mp h).1
    have last : i = w.nodes.length := by
      simp only [mint, List.length_append, List.length_singleton] at bound
      omega
    subst last
    refine .inr ⟨rfl, ?_⟩
    simpa [mint] using h.symm

/-- A fresh node's graces are its own before its parent's. -/
theorem narrowing_mint {w : World} (narrowing : w.Narrowing) {parent shield : Option ℕ}
    (stands : ∀ p ∈ parent, p < w.nodes.length)
    (narrow : ∀ grace ∈ shield, ∀ p ∈ parent, ∀ e ∈ w.graces p, grace ≤ e) :
    (w.mint parent shield stands).Narrowing := by
  intro i
  have later : w.Later (w.mint parent shield stands) := w.later_mint stands
  cases h : (w.mint parent shield stands).nodes[i]? with
  | none =>
    rw [graces_dead h]
    exact List.Pairwise.nil
  | some v =>
    rcases mint_old stands h with old | ⟨rfl, rfl⟩
    · rw [later.graces old]
      exact narrowing i
    · rcases Option.eq_none_or_eq_some parent with rfl | ⟨p, rfl⟩
      · rw [graces_root h rfl]
        cases shield <;> simp [Vertex.fresh]
      · have live : p < w.nodes.length := stands p rfl
        rw [graces_child h rfl, later.graces live]
        cases shield with
        | none => simpa [Vertex.fresh] using narrowing p
        | some grace =>
          simp only [Vertex.fresh, Option.toList_some, List.singleton_append]
          exact List.pairwise_cons.mpr ⟨narrow grace rfl p rfl, narrowing p⟩

theorem Later.narrowing {w w' : World} (later : w.Later w')
    (same : w'.nodes.length = w.nodes.length) (narrowing : w.Narrowing) : w'.Narrowing := by
  intro i
  by_cases h : i < w.nodes.length
  · rw [later.graces h]
    exact narrowing i
  · rw [graces_dead (List.getElem?_eq_none (by omega))]
    exact List.Pairwise.nil

end World

theorem Step.narrowing {w w' : World} (step : Step w w') (narrowing : w.Narrowing) :
    w'.Narrowing := by
  have later := step.later
  cases step with
  | tick d => exact later.narrowing rfl narrowing
  | root => exact World.narrowing_mint narrowing _ (by simp)
  | child p stands => exact World.narrowing_mint narrowing stands (by simp)
  | shielded p grace stands =>
    refine World.narrowing_mint narrowing stands ?_
    intro g hg q hq e he
    cases hg
    cases hq
    exact World.narrowed_le narrowing p grace he
  | stamp i instant read => exact later.narrowing (List.length_modify _ _ _) narrowing
  | raise i cause stamped => exact later.narrowing (List.length_modify _ _ _) narrowing

theorem Reachable.narrowing {w : World} (reach : Reachable w) : w.Narrowing := by
  induction reach with
  | refl =>
    intro i
    rw [World.graces_dead (by simp [World.empty])]
    exact List.Pairwise.nil
  | tail _ step ih => exact step.narrowing ih

/-! ## How a child ended

The outcome the system reports for a child, and how it reads under the strongest
cause in force: a death by one of that cause's signals is the cause's, anything else
stays what the system reported.
-/

/-- An OS signal number. -/
structure Signal where
  number : Int
  deriving DecidableEq

namespace Signal

def hup : Signal := ⟨1⟩
def int : Signal := ⟨2⟩
def quit : Signal := ⟨3⟩
def kill : Signal := ⟨9⟩
def term : Signal := ⟨15⟩

def ofStatus (code : Int) : Option Signal :=
  if 0 < code - 128 then some ⟨code - 128⟩ else none

end Signal

namespace CancelCause

/-- How far an optional cause has escalated: nothing lies below every cause. -/
def level : Option CancelCause → ℕ
  | none => 0
  | some c => c.asU8

@[simp] theorem level_none : level none = 0 := rfl

@[simp] theorem level_some (c : CancelCause) : level (some c) = c.asU8 := rfl

theorem asU8_pos (c : CancelCause) : 0 < c.asU8 := by
  cases c <;> decide

/-- The stronger of two, the first where they are one. -/
def max (a b : Option CancelCause) : Option CancelCause := if level a < level b then b else a

def graceSignal : CancelCause → Option Signal
  | interrupted => some .int
  | cancelled => some .term
  | timedOut => some .term
  | terminated => some .term
  | readerGone => none
  | aborted => none

def gestures : List (Signal × CancelCause) :=
  [(.int, interrupted), (.quit, aborted), (.hup, terminated)]

def gesture (signal : Signal) : Option CancelCause :=
  (gestures.find? fun g => g.1 = signal).map Prod.snd

def gestureSignal (cause : CancelCause) : Option Signal :=
  (gestures.find? fun g => g.2 = cause).map Prod.fst

def signalsOf (cause : CancelCause) : List Signal :=
  cause.graceSignal.toList ++ cause.gestureSignal.toList ++ [.kill]

end CancelCause

/-- What the system reported when a process ended. -/
inductive WaitOutcome
  | exited (code : Int)
  | signaled (signal : Signal)
  | nativeCode (code : Int)
  /-- An exit behind an envelope, which reports its payload's signal as `128 + n`. -/
  | enveloped (code : Int)
  deriving DecidableEq

/-- The failures of a child that ran; a spawn's is made before there is a child. -/
inductive CommandFailure
  | exitCode (code : Int)
  | signal (signal : Signal)
  deriving DecidableEq

/-- A child's end once the session's own teardown is accounted for. -/
inductive ChildEnd
  | failed (failure : CommandFailure)
  | cancelled (cause : CancelCause)
  deriving DecidableEq

namespace WaitOutcome

def envelope (envelope : Bool) : WaitOutcome → WaitOutcome
  | exited code => if envelope then .enveloped code else .exited code
  | other => other

def death : WaitOutcome → Option Signal
  | signaled signal => some signal
  | enveloped code => Signal.ofStatus code
  | _ => none

def isDeathBy (outcome : WaitOutcome) (cause : CancelCause) : Bool :=
  outcome.death.any fun signal => cause.signalsOf.contains signal

/-- The end as the system reported it; `none` for success. -/
def reported : WaitOutcome → Option ChildEnd
  | exited code => if code = 0 then none else some (.failed (.exitCode code))
  | nativeCode code => if code = 0 then none else some (.failed (.exitCode code))
  | enveloped code => if code = 0 then none else some (.failed (.exitCode code))
  | signaled signal => some (.failed (.signal signal))

def classify (outcome : WaitOutcome) (cause : Option CancelCause) : Option ChildEnd :=
  match cause.filter outcome.isDeathBy with
  | some cause => some (.cancelled cause)
  | none => outcome.reported

theorem classify_cancelled {outcome : WaitOutcome} {cause : Option CancelCause} {c : CancelCause} :
    outcome.classify cause = some (.cancelled c) ↔ cause = some c ∧ outcome.isDeathBy c := by
  have unminted : outcome.reported ≠ some (.cancelled c) := by
    cases outcome <;> simp only [WaitOutcome.reported] <;> (try split) <;> simp
  unfold classify
  cases cause with
  | none => simpa using unminted
  | some d =>
    by_cases death : outcome.isDeathBy d
    · have : d = c → outcome.isDeathBy c := by
        rintro rfl
        exact death
      simpa [Option.filter, death] using this
    · have other : ¬ (d = c ∧ outcome.isDeathBy c) := by
        rintro ⟨rfl, by'⟩
        exact death by'
      simpa [Option.filter, death, unminted] using other

end WaitOutcome

end Ral.Process
