import Ral.Pipeline.Collect

/-! # Every run of the collector -/

namespace Ral.Pipeline

open Ral.Eval Ral.Process

variable {Fact : Type}

namespace CollectState

/-! ## What one event does to the slots -/

def kinds (c : CollectState Fact) : List (Option StageKind) := c.stages.map (Option.map StageHandle.kind)

/-- Nothing is filed, and the teardown can only rise. -/
structure Marks (c c' : CollectState Fact) : Prop where
  kinds : c'.kinds = c.kinds
  observed : c'.observed = c.observed
  teardown : CancelCause.level c.teardown ≤ CancelCause.level c'.teardown

/-- What filing does: the stage named, if any, leaves its slot for an end. -/
inductive Took (c c' : CollectState Fact) : Option ℕ → Prop
  | none (kinds : c'.kinds = c.kinds) (observed : c'.observed = c.observed)
      (teardown : c'.teardown = c.teardown) : Took c c' none
  | filed (ix : ℕ) (e : StageEnd Fact) (kinds : c'.kinds = c.kinds.set ix .none)
      (observed : c'.observed = c.observed.set ix (some e)) (teardown : c'.teardown = c.teardown) :
      Took c c' (some ix)

variable {c c' c'' : CollectState Fact}

theorem Marks.refl (c : CollectState Fact) : c.Marks c := ⟨rfl, rfl, Nat.le_refl _⟩

theorem Marks.trans (h : c.Marks c') (h' : c'.Marks c'') : c.Marks c'' :=
  ⟨h'.kinds.trans h.kinds, h'.observed.trans h.observed, Nat.le_trans h.teardown h'.teardown⟩

theorem live_kinds (c : CollectState Fact) : c.live = c.kinds.any Option.isSome := by
  rw [live, kinds, List.any_map]
  congr 1
  funext stage
  cases stage <;> rfl

theorem Marks.live (h : c.Marks c') : c'.live = c.live := by
  rw [live_kinds, live_kinds, h.kinds]

theorem marks_hear (signal : Signal) (c : CollectState Fact) : c.Marks (c.hear signal) :=
  ⟨rfl, rfl, Nat.le_refl _⟩

theorem marks_hearOut (queue : List (Event Fact)) (c : CollectState Fact) : c.Marks (c.hearOut queue) := by
  unfold hearOut
  induction queue generalizing c with
  | nil => exact .refl c
  | cons ev queue ih =>
    rw [List.foldl_cons]
    cases ev with
    | heard signal => exact (marks_hear signal c).trans (ih _)
    | ended ix outcome => exact ih c
    | returned ix obs => exact ih c
    | wrote ix => exact ih c
    | cancelled cause => exact ih c
    | anchorDied => exact ih c

theorem marks_killStage (ix : ℕ) (c : CollectState Fact) : c.Marks (c.killStage ix) := by
  refine ⟨?_, rfl, Nat.le_refl _⟩
  apply List.ext_getElem?
  intro j
  simp only [kinds, killStage, List.getElem?_map, List.getElem?_modify]
  cases c.stages[j]? with
  | none => rfl
  | some stage =>
    cases stage with
    | none => split <;> rfl
    | some handle => split <;> rfl

theorem marks_escalate {cause : CancelCause} (h : c.escalate cause = some c') : c.Marks c' := by
  unfold escalate at h
  split at h
  · cases h
  · next above =>
      cases h
      refine ⟨?_, rfl, ?_⟩
      · simp only [kinds, List.map_map]
        apply List.map_congr_left
        intro stage _
        cases stage <;> rfl
      · rw [CancelCause.level_some]
        omega

theorem marks_escalate_getD (cause : CancelCause) (c : CollectState Fact) :
    c.Marks ((c.escalate cause).getD c) := by
  cases h : c.escalate cause with
  | none => exact .refl c
  | some c' => exact marks_escalate h

theorem marks_cancelAll (cause : CancelCause) (c : CollectState Fact) : c.Marks (c.cancelAll cause).1 := by
  unfold cancelAll
  cases h : c.escalate cause with
  | none => exact .refl c
  | some c' => exact marks_escalate h

theorem marks_rollBack (inForce : Option CancelCause) (c : CollectState Fact) :
    c.Marks (c.rollBack inForce).1 := by
  unfold rollBack
  split
  · exact marks_cancelAll _ c
  · exact .refl c

theorem Took.mark {filed : Option ℕ} (h : c.Took c' filed) (marks : c'.Marks c'') :
    CancelCause.level c.teardown ≤ CancelCause.level c''.teardown := by
  have rises := marks.teardown
  cases h with
  | none kinds observed teardown => rwa [teardown] at rises
  | filed ix e kinds observed teardown => rwa [teardown] at rises

/-! ## Slots and ends -/

/-- Each slot holds the stage launched into it, or its end. -/
structure Fit (launched : List StageKind) (c : CollectState Fact) : Prop where
  kinds : c.kinds.length = launched.length
  observed : c.observed.length = launched.length
  each : ∀ (ix : ℕ) (kind : StageKind), launched[ix]? = some kind →
    (c.kinds[ix]? = some (some kind) ∧ c.observed[ix]? = some none) ∨
      (c.kinds[ix]? = some none ∧ ∃ e, c.observed[ix]? = some (some e))

variable {launched : List StageKind}

theorem Fit.mark (fit : c.Fit launched) (marks : c.Marks c') : c'.Fit launched := by
  refine ⟨?_, ?_, ?_⟩
  · rw [marks.kinds, fit.kinds]
  · rw [marks.observed, fit.observed]
  · rw [marks.kinds, marks.observed]
    exact fit.each

theorem Fit.took {filed : Option ℕ} (fit : c.Fit launched) (took : c.Took c' filed) : c'.Fit launched := by
  cases took with
  | none kinds observed teardown =>
    refine ⟨?_, ?_, ?_⟩
    · rw [kinds, fit.kinds]
    · rw [observed, fit.observed]
    · rw [kinds, observed]
      exact fit.each
  | filed ix e kinds observed teardown =>
    refine ⟨?_, ?_, fun j kind at' => ?_⟩
    · rw [kinds, List.length_set, fit.kinds]
    · rw [observed, List.length_set, fit.observed]
    · rw [kinds, observed]
      by_cases same : ix = j
      · subst same
        have bound := (List.getElem?_eq_some_iff.mp at').1
        right
        have inKinds : ix < c.kinds.length := by rw [fit.kinds]; exact bound
        have inObserved : ix < c.observed.length := by rw [fit.observed]; exact bound
        exact ⟨List.getElem?_set_self inKinds, e, List.getElem?_set_self inObserved⟩
      · rw [List.getElem?_set_ne same, List.getElem?_set_ne same]
        exact fit.each j kind at'

theorem handle_of_kinds {ix : ℕ} {kind : StageKind} (h : c.kinds[ix]? = some (some kind)) :
    ∃ handle, c.stages[ix]? = some (some handle) ∧ handle.kind = kind := by
  rw [kinds, List.getElem?_map] at h
  obtain ⟨stage, stands, eq⟩ := Option.map_eq_some_iff.mp h
  cases stage with
  | none => simp at eq
  | some handle => exact ⟨handle, stands, by simpa using eq⟩

theorem Fit.over (fit : c.Fit launched) (over' : c.live = false) : ∀ o ∈ c.observed, ∃ e, o = some e := by
  intro o mem
  obtain ⟨ix, bound, eq⟩ := List.getElem_of_mem mem
  have here : c.observed[ix]? = some o := by rw [List.getElem?_eq_getElem bound, eq]
  have inLaunched : ix < launched.length := by rw [← fit.observed]; exact bound
  rcases fit.each ix _ (List.getElem?_eq_getElem inLaunched) with ⟨running, -⟩ | ⟨-, e, found⟩
  · obtain ⟨handle, stands, -⟩ := handle_of_kinds running
    have gone := (List.any_eq_false.mp over') _ (List.mem_of_getElem? stands)
    simp at gone
  · rw [here] at found
    exact ⟨e, Option.some.inj found⟩

end CollectState

def Event.Fits (launched : List StageKind) : Event Fact → Prop
  | .ended ix _ => ∃ e, launched[ix]? = some (.external e)
  | .returned ix _ => ∃ t, launched[ix]? = some (.thread t)
  | .wrote ix => ix < launched.length
  | _ => True

namespace CollectState

variable {c c' : CollectState Fact} {launched : List StageKind}

theorem file_live {ix : ℕ} {handle : StageHandle} (ending : StageHandle → Except String (StageEnd Fact))
    {e : StageEnd Fact} (stands : c.stages[ix]? = some (some handle)) (gives : ending handle = .ok e) :
    ∃ c', c.file ix ending = .ok c' ∧ c'.observed = c.observed.set ix (some e) ∧ c.Took c' (some ix) := by
  refine ⟨{ c with stages := c.stages.set ix none, observed := c.observed.set ix (some e) }, ?_, rfl, ?_⟩
  · simp only [file, stands, gives]
  · refine .filed ix e ?_ rfl rfl
    simp only [kinds, List.map_set, Option.map_none]

/-- An end for a live stage is filed, and no event of a fitting stage panics. -/
theorem step_took (fit : c.Fit launched) {ev : Event Fact} (fits : ev.Fits launched)
    (live : ∀ ix ∈ ev.files, ∃ kind, launched[ix]? = some kind ∧ c.kinds[ix]? = some (some kind)) :
    ∃ c' effect, c.step ev = .ok (c', effect) ∧ c.Took c' ev.files := by
  cases ev with
  | ended ix outcome =>
    obtain ⟨e, kind⟩ := fits
    obtain ⟨kind', at', running⟩ := live ix rfl
    rw [kind, Option.some.injEq] at at'
    subst at'
    obtain ⟨handle, stands, eq⟩ := handle_of_kinds running
    have gives : (handle.fileExternalEnd outcome : Except String (StageEnd Fact)) =
        .ok (.external e (outcome.envelope e.envelope.isSome) handle.sent) := by
      simp only [StageHandle.fileExternalEnd, eq]
    obtain ⟨c', filed, -, took⟩ := file_live (·.fileExternalEnd outcome) stands gives
    exact ⟨c', none, by simp only [step, filed]; rfl, took⟩
  | returned ix obs =>
    obtain ⟨t, kind⟩ := fits
    obtain ⟨kind', at', running⟩ := live ix rfl
    rw [kind, Option.some.injEq] at at'
    subst at'
    obtain ⟨handle, stands, eq⟩ := handle_of_kinds running
    have gives : handle.fileThreadEnd obs = .ok (.thread obs t.id) := by
      simp only [StageHandle.fileThreadEnd, eq]
    obtain ⟨c', filed, observed, took⟩ := file_live (·.fileThreadEnd obs) stands gives
    have bound : ix < c.observed.length := by
      rw [fit.observed]
      exact (List.getElem?_eq_some_iff.mp kind).1
    have found : c'.observed[ix]? = some (some (.thread obs t.id)) := by
      rw [observed, List.getElem?_set_self bound]
    simp only [step, filed, found]
    exact ⟨_, _, rfl, took⟩
  | wrote ix =>
    have bound : ix < c.stages.length := by
      have eq := fit.kinds
      rw [kinds, List.length_map] at eq
      rw [eq]
      exact fits
    simp only [step, List.getElem?_eq_getElem bound]
    exact ⟨_, _, rfl, .none rfl rfl rfl⟩
  | cancelled cause => exact ⟨_, _, rfl, .none rfl rfl rfl⟩
  | anchorDied => exact ⟨_, _, rfl, .none rfl rfl rfl⟩
  | heard signal => exact ⟨_, _, rfl, .none rfl rfl rfl⟩

end CollectState

end Ral.Pipeline
