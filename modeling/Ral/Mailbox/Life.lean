import Ral.Core.Fallible
import Ral.Mailbox.Owner

/-! # A life of the mailbox

Posters, the owner and its teardown, one transaction after another in any order, with
everything the device and the rest of the process may do in between.
-/

namespace Ral.Mailbox
open Ral.Data Ral.Session Ral.Record

/-! ## The world -/

/-- How far the owner's thread has come. -/
inductive Phase
  | attending
  | ended
  | owing
  /-- A panic unwound the thread. -/
  | unwound
  | torndown
deriving DecidableEq

structure World where
  shared : Shared
  phase : Phase

inductive Event
  | post (item : Queued) (ok : Bool)
  | gone (id : AgentId)
  | ring (label : String) (id : ScheduleId)
  | recallTexts (ok : Bool)
  | stopCurrent
  | stop (job : JobId) (ok : Bool)
  | release
  | endLife
  | report (status : ChildStatus) (ok synced : Bool)
  | schedule (label : String) (booking : Schedule) (ok : Bool)
  | unschedule (label : String) (ok : Bool)
  | fire (label : String) (id : ScheduleId) (nextUnixMs : Option ℕ) (text : String) (ok : Bool)
  | takeRung
  | changeModel (selected : Selected) (ok : Bool)
  | narrow (model : String) (limit : ℕ) (ok : Bool)
  | clear (ok : Bool)
  | begin (ok : Bool)
  | next (pending expired ok : Bool)
  | drain (ok : Bool)
  | cancelExchange
  | append (ok : Bool)
  | sync (synced : Bool)
  /-- A transaction's closure panics, and leaves anything in the cell. -/
  | panic (left : Cell)
  | teardown
  | settle
  | lastReport (reason : String) (ok synced : Bool)
  | unwind
  | drop

inductive Answer
  | done
  | id (post : PostId)
  | flag (yes : Bool)
  | texts (texts : List String)
  | stopped (texts : Option (List String))
  | rung (rung : SortedMap String ScheduleId)
  | next (next : Next)
  | drained (drained : List Drained)

namespace Shared

/-- Locking a poisoned cell latches the log and ends the life. -/
def transact {α : Type} (x : Txn α) (s : Shared) : Except Fault α × Shared :=
  if s.poisoned then (.error .unavailable, s.latched)
  else match x s with
    | some (.error .panicked, s') => (.error .panicked, { s' with poisoned := true })
    | some (r, s') => (r, s')
    | none => (.error .panicked, s)

/-- A poisoned cell still owes the parent one failure. -/
def reportAt (status : ChildStatus) (ok synced : Bool) (s : Shared) : Except Fault Unit × Shared :=
  if s.poisoned then
    (.error .unavailable, if s.failureNoticed then s.latched
      else { s.latched with failureNoticed := true, notices := s.notices ++ s.parent.toList.map fun _ => .failure })
  else s.transact (report status ok synced)

def dropped (s : Shared) : Shared :=
  if s.poisoned then { s.latched with owned := false }
  else { s with live := false, owned := false, cell := { s.cell with queue := [] } }

end Shared

namespace World

def transact {α : Type} (w : World) (x : Txn α) (answer : α → Answer) : Except Fault Answer × World :=
  ((w.shared.transact x).1.map answer, { w with shared := (w.shared.transact x).2 })

/-- What only the owner does, while it attends. -/
def own {α : Type} (w : World) (x : Txn α) (answer : α → Answer) : Except Fault Answer × World :=
  if w.phase = .attending && w.shared.owned then w.transact x answer else (.error .unavailable, w)

variable [Wording]

def step (w : World) : Event → Except Fault Answer × World
  | .post item ok => w.transact (post item ok) .id
  | .gone id => w.transact (gone id) fun _ => .done
  | .ring label id =>
    if w.shared.poisoned then (.ok .done, w) else w.transact (ring label id) fun _ => .done
  | .recallTexts ok => w.transact (recallLive ok) .texts
  | .stopCurrent => w.transact (stop none) .flag
  | .stop job ok => w.transact (stopJob job ok) .stopped
  | .release => w.transact release .flag
  | .endLife => w.transact endLife fun _ => .done
  | .report status ok synced =>
    let (r, shared) := w.shared.reportAt status ok synced
    (r.map fun _ => .done, { w with shared })
  | .schedule label booking ok => w.transact (schedule label booking ok) .flag
  | .unschedule label ok => w.transact (unschedule label ok) .flag
  | .fire label id nextUnixMs text ok => w.transact (fire label id nextUnixMs text ok) .flag
  | .takeRung => w.transact takeRung .rung
  | .changeModel selected ok => w.transact (changeModel selected ok) fun _ => .done
  | .narrow model limit ok => w.transact (narrow model limit ok) .flag
  | .clear ok => w.transact (clear ok) fun _ => .done
  | .begin ok => w.own (begin ok) .flag
  | .next pending expired ok => w.own (next pending expired ok) .next
  | .drain ok => w.own (drain ok) .drained
  | .cancelExchange =>
    let exchange := w.shared.cell.exchange.map fun _ => true
    (.ok .done, { w with shared := { w.shared with cell := { w.shared.cell with exchange } } })
  | .append ok =>
    if w.shared.journal.failed || !ok then (.error .unavailable, { w with shared := w.shared.latched })
    else
      let journal := { w.shared.journal with commits := w.shared.journal.commits + 1 }
      (.ok .done, { w with shared := { w.shared with journal } })
  | .sync synced =>
    if w.shared.journal.failed || !synced then (.error .unavailable, { w with shared := w.shared.latched })
    else (.ok .done, w)
  | .panic left =>
    if w.shared.poisoned then (.error .unavailable, w)
    else (.error .panicked, { w with shared := { w.shared with poisoned := true, cell := left } })
  | .teardown =>
    if w.phase = .attending && w.shared.owned then
      (.ok .done, ⟨(w.shared.transact endLife).2, .ended⟩)
    else (.error .unavailable, w)
  | .settle =>
    if w.phase = .ended then
      let (r, shared) := w.shared.transact Run.get
      let owes := match r with
        | .ok s => s.mail.owes
        | .error _ => w.shared.parent.isSome
      (.ok .done, ⟨shared, if owes then .owing else .torndown⟩)
    else (.error .unavailable, w)
  | .lastReport reason ok synced =>
    if w.phase = .owing || w.phase = .unwound then
      let (r, shared) := w.shared.reportAt (.failed reason) ok synced
      (r.map fun _ => .done, ⟨shared, .torndown⟩)
    else (.error .unavailable, w)
  | .unwind =>
    if w.shared.owned then (.ok .done, ⟨w.shared.dropped, .unwound⟩) else (.error .unavailable, w)
  | .drop =>
    if w.phase = .torndown && w.shared.owned then (.ok .done, ⟨w.shared.dropped, .torndown⟩)
    else (.error .unavailable, w)

end World

/-! ## Runs -/

structure Moment where
  before : World
  event : Event
  answer : Except Fault Answer
  after : World

namespace World
variable [Wording]

def moment (w : World) (event : Event) : Moment := ⟨w, event, (w.step event).1, (w.step event).2⟩

/-- What happens, in turn. -/
def moments (w : World) : List Event → List Moment
  | [] => []
  | event :: events => w.moment event :: (w.step event).2.moments events

def run (w : World) (events : List Event) : World := events.foldl (fun w event => (w.step event).2) w

theorem run_cons (w : World) (event : Event) (events : List Event) :
    w.run (event :: events) = (w.step event).2.run events := rfl

theorem run_append (w : World) (xs ys : List Event) : w.run (xs ++ ys) = (w.run xs).run ys := List.foldl_append

theorem mem_moments {w : World} {events : List Event} {m : Moment} (h : m ∈ w.moments events) :
    ∃ earlier event later, events = earlier ++ event :: later ∧ m = (w.run earlier).moment event := by
  induction events generalizing w with
  | nil => cases h
  | cons event events ih =>
    rcases List.mem_cons.mp h with rfl | h
    · exact ⟨[], event, events, rfl, rfl⟩
    · obtain ⟨earlier, found, later, rfl, hm⟩ := ih h
      exact ⟨event :: earlier, found, later, rfl, hm⟩

end World

/-! ## What a step does -/

def Event.hit (s : Shared) : Event → Option JobId
  | .stopCurrent => if s.poisoned then none else s.hit none
  | .stop job _ => if s.poisoned || s.journal.failed then none else s.hit (some job)
  | _ => none

/-- A poisoned cell is read no more. -/
structure Dead (s s' : Shared) : Prop where
  poisoned : s'.poisoned = true
  parent : s'.parent = s.parent
  records : s'.journal.records = s.journal.records
  latch : s.journal.failed = true → s'.journal.failed = true
  live : s'.live = true → s.live = true
  owned : s'.owned = true → s.owned = true

section Effects
variable [Wording] {seed : Folds} {s s' : Shared}

inductive Effect (seed : Folds) (s s' : Shared) (hit : Option JobId) : Prop
  | moved {line : List Control} : s.poisoned = false → Advances seed s s' line → JobMove s s' hit line →
      Effect seed s s' hit
  | reported {status : ChildStatus} : s.poisoned = false → hit = none → Reports seed s s' status →
      Effect seed s s' hit
  | dead : hit = none → Dead s s' → s'.notices = s.notices → s'.failureNoticed = s.failureNoticed →
      Effect seed s s' hit
  | failure : hit = none → s.poisoned = true → Dead s s' → s'.failureNoticed = true →
      s'.notices = s.notices ++ (if s.failureNoticed then [] else s.tells .failure) → Effect seed s s' hit

/-- Unless some transaction panicked, the cell is the replay of the log. -/
def Sound (seed : Folds) (s : Shared) : Prop := s.poisoned = false → s.Replays seed

omit [Wording] in
theorem Dead.latched (h : s.poisoned = true) : Dead s s.latched where
  poisoned := h
  parent := rfl
  records := rfl
  latch _ := rfl
  live h := nomatch h
  owned h := h

theorem Effect.still (h : s.Replays seed) (hpoisoned : s.poisoned = false) : Effect seed s s none :=
  .moved hpoisoned h.advances_refl (.steady rfl ⟨rfl, rfl, by simp⟩)

theorem Effect.refl (h : Sound seed s) : Effect seed s s none := by
  cases hpoisoned : s.poisoned with
  | false => exact .still (h hpoisoned) hpoisoned
  | true => exact .dead rfl ⟨hpoisoned, rfl, rfl, fun h => h, fun h => h, fun h => h⟩ rfl rfl

omit [Wording] in
theorem transact_of_ends {α : Type} {x : Txn α} {P : Except Fault α → Shared → Prop} (hpoisoned : s.poisoned = false)
    (h : Run.Ends x s P) (hP : ∀ r s', P r s' → r ≠ .error .panicked) :
    P (s.transact x).1 (s.transact x).2 := by
  obtain ⟨r, s', hx, hr⟩ := h
  have hne := hP r s' hr
  unfold Shared.transact
  rw [if_neg (by simp [hpoisoned]), hx]
  match r with
  | .ok _ => exact hr
  | .error .unavailable => exact hr
  | .error .ended => exact hr
  | .error .resting => exact hr
  | .error .panicked => exact absurd rfl hne

omit [Wording] in
theorem transact_poisoned {α : Type} (x : Txn α) (hpoisoned : s.poisoned = true) :
    s.transact x = (.error .unavailable, s.latched) := if_pos hpoisoned

theorem transact_effect {α : Type} {x : Txn α} {hit : Option JobId} (hsound : Sound seed s)
    (hdead : s.poisoned = true → hit = none)
    (h : s.poisoned = false → s.Replays seed → Run.Ends x s (Moved seed s hit)) :
    (s.transact x).1 ≠ .error .panicked ∧ Effect seed s (s.transact x).2 hit := by
  cases hpoisoned : s.poisoned with
  | true =>
    rw [transact_poisoned x hpoisoned]
    exact ⟨by simp, .dead (hdead hpoisoned) (.latched hpoisoned) rfl rfl⟩
  | false =>
    have hmoved := transact_of_ends hpoisoned (h hpoisoned (hsound hpoisoned)) fun r s' hmoved => hmoved.1
    obtain ⟨hr, line, hadv, hjob⟩ := hmoved
    exact ⟨hr, .moved hpoisoned hadv hjob⟩

theorem quiet_effect {α : Type} {x : Txn α} (hsound : Sound seed s)
    (h : s.Replays seed → Run.Ends x s (Quiet seed s)) :
    (s.transact x).1 ≠ .error .panicked ∧ Effect seed s (s.transact x).2 none :=
  transact_effect hsound (fun _ => rfl) fun _ hreplays => (h hreplays).mono fun _ _ hquiet => hquiet.moved

/-- A report ends, or its cell is dead. -/
theorem reportAt_cases (hsound : Sound seed s) (status : ChildStatus) (ok synced : Bool) :
    (s.reportAt status ok synced).1 ≠ .error .panicked ∧
      ((s.poisoned = false ∧ Reports seed s (s.reportAt status ok synced).2 status) ∨
        (s.poisoned = true ∧ Dead s (s.reportAt status ok synced).2 ∧
          (s.reportAt status ok synced).2.failureNoticed = true ∧
          (s.reportAt status ok synced).2.notices =
            s.notices ++ (if s.failureNoticed then [] else s.tells .failure))) := by
  unfold Shared.reportAt
  cases hpoisoned : s.poisoned with
  | true =>
    rw [if_pos rfl]
    refine ⟨by simp, Or.inr ⟨rfl, ?_⟩⟩
    have hdead := Dead.latched hpoisoned
    cases hnoticed : s.failureNoticed with
    | true => exact ⟨hdead, hnoticed, by simp [Shared.latched]⟩
    | false => exact ⟨{ hdead with }, rfl, by simp [Shared.tells]⟩
  | false =>
    rw [if_neg (by simp)]
    obtain ⟨hr, hreports⟩ := transact_of_ends hpoisoned
      (report_reports (hsound hpoisoned) status ok synced) fun r s' h => h.1
    exact ⟨hr, Or.inl ⟨rfl, hreports⟩⟩

theorem reportAt_effect (hsound : Sound seed s) (status : ChildStatus) (ok synced : Bool) :
    (s.reportAt status ok synced).1 ≠ .error .panicked ∧ Effect seed s (s.reportAt status ok synced).2 none := by
  obtain ⟨hr, hcases⟩ := reportAt_cases hsound status ok synced
  refine ⟨hr, ?_⟩
  rcases hcases with ⟨hpoisoned, hreports⟩ | ⟨hpoisoned, hdead, hnoticed, hnotices⟩
  · exact .reported hpoisoned rfl hreports
  · exact .failure rfl hpoisoned hdead hnoticed hnotices

theorem Shared.Replays.dropped (h : s.Replays seed) (hpoisoned : s.poisoned = false) :
    Effect seed s s.dropped none := by
  unfold Shared.dropped
  rw [if_neg (by simp [hpoisoned])]
  have hadv : Advances seed s
      { s with live := false, owned := false, cell := { s.cell with queue := [] } } [] :=
    { h.advances_refl with
      replays := { h with kept := List.nil_sublist _, owned := fun howned => nomatch howned }
      live := fun hlive => nomatch hlive
      owned := fun howned => nomatch howned }
  exact .moved hpoisoned hadv (.steady rfl ⟨rfl, rfl, by simp⟩)

theorem dropped_effect (hsound : Sound seed s) : Effect seed s s.dropped none := by
  cases hpoisoned : s.poisoned with
  | false => exact (hsound hpoisoned).dropped hpoisoned
  | true =>
    unfold Shared.dropped
    rw [if_pos hpoisoned]
    exact .dead rfl { Dead.latched hpoisoned with owned := fun howned => nomatch howned } rfl rfl

theorem Effect.sound {hit : Option JobId} (h : Effect seed s s' hit) : Sound seed s' := by
  intro hpoisoned
  cases h with
  | moved _ hadv _ => exact hadv.replays
  | reported _ _ hreports => exact hreports.filed.replays
  | dead _ hdead => exact absurd (hdead.poisoned.symm.trans hpoisoned) (by simp)
  | failure _ _ hdead => exact absurd (hdead.poisoned.symm.trans hpoisoned) (by simp)

theorem Effect.records {hit : Option JobId} (h : Effect seed s s' hit) :
    s.journal.records <+: s'.journal.records := by
  cases h with
  | moved _ hadv _ => exact hadv.records ▸ List.prefix_append _ _
  | reported _ _ hreports =>
    obtain ⟨line, hrecords, _⟩ := hreports.filed.records
    exact hrecords ▸ List.prefix_append _ _
  | dead _ hdead => exact hdead.records ▸ List.prefix_rfl
  | failure _ _ hdead => exact hdead.records ▸ List.prefix_rfl

theorem Effect.replays {hit : Option JobId} (h : Effect seed s s' hit)
    (hlog : ∃ folds, seed.replay s.journal.records = .ok folds) :
    ∃ folds, seed.replay s'.journal.records = .ok folds := by
  cases h with
  | moved _ hadv _ => exact ⟨_, hadv.replays.replay⟩
  | reported _ _ hreports => exact ⟨_, hreports.filed.replays.replay⟩
  | dead _ hdead => exact hdead.records ▸ hlog
  | failure _ _ hdead => exact hdead.records ▸ hlog

omit [Wording] in
theorem map_ne_error {α β : Type} {r : Except Fault α} {e : Fault} (f : α → β) (h : r ≠ .error e) :
    r.map f ≠ .error e := by
  cases r with
  | ok a => simp [Except.map]
  | error e' =>
    intro he
    cases he
    exact h rfl

/-- One step, and that only another's panic makes it panic. -/
def Stepped (seed : Folds) (w : World) (hit : Option JobId) (step : Except Fault Answer × World) : Prop :=
  step.1 ≠ .error .panicked ∧ Effect seed w.shared step.2.shared hit

variable {w : World}

theorem stepped_transact {α : Type} {x : Txn α} {hit : Option JobId} (answer : α → Answer)
    (h : (w.shared.transact x).1 ≠ .error .panicked ∧ Effect seed w.shared (w.shared.transact x).2 hit) :
    Stepped seed w hit (w.transact x answer) := ⟨map_ne_error answer h.1, h.2⟩

theorem stepped_own {α : Type} {x : Txn α} (answer : α → Answer) (hsound : Sound seed w.shared)
    (h : (w.shared.transact x).1 ≠ .error .panicked ∧ Effect seed w.shared (w.shared.transact x).2 none) :
    Stepped seed w none (w.own x answer) := by
  unfold World.own
  split
  · exact stepped_transact answer h
  · exact ⟨by simp, .refl hsound⟩

theorem latched_effect (hsound : Sound seed s) : Effect seed s s.latched none := by
  cases hpoisoned : s.poisoned with
  | true => exact .dead rfl (.latched hpoisoned) rfl rfl
  | false => exact .moved hpoisoned (hsound hpoisoned).advances_latched (.steady rfl ⟨rfl, rfl, by simp⟩)

omit [Wording] in
theorem hit_of_poisoned {event : Event} (h : s.poisoned = true) : event.hit s = none := by
  cases event <;> simp [Event.hit, h]

theorem drain_moved {ok : Bool} (h : s.Replays seed) : Run.Ends (drain ok) s (Quiet seed s) := by
  refine ends_drain h ?_ ?_ ?_
  · exact fun _ => h.quiet_refl (by simp)
  · exact h.quiet_latched (by simp)
  · intro given s' hdrains hsteady
    exact ⟨by simp, _, hdrains.line, hsteady⟩

theorem step_stepped (hsound : Sound seed w.shared) (event : Event) (hpanic : ∀ left, event ≠ .panic left) :
    Stepped seed w (event.hit w.shared) (w.step event) := by
  cases event with
  | post item ok => exact stepped_transact _ (quiet_effect hsound fun h => post_quiet h item)
  | gone id => exact stepped_transact _ (quiet_effect hsound fun h => gone_quiet h id)
  | ring label id =>
    simp only [World.step]
    split
    · exact ⟨by simp, .refl hsound⟩
    · exact stepped_transact _ (quiet_effect hsound fun h => ring_quiet h label id)
  | recallTexts ok => exact stepped_transact _ (quiet_effect hsound fun h => recallLive_quiet h)
  | stopCurrent =>
    refine stepped_transact _ (transact_effect hsound hit_of_poisoned fun hpoisoned h => ?_)
    have hhit : Event.hit w.shared .stopCurrent = w.shared.hit none := by
      simp [Event.hit, hpoisoned]
    rw [hhit]
    exact stop_moved h none
  | stop job ok =>
    refine stepped_transact _ (transact_effect hsound hit_of_poisoned fun hpoisoned h => ?_)
    have hhit : Event.hit w.shared (.stop job ok) =
        if w.shared.journal.failed then none else w.shared.hit (some job) := by
      simp [Event.hit, hpoisoned]
    rw [hhit]
    exact stopJob_moved h job ok
  | release => exact stepped_transact _ (quiet_effect hsound fun h => release_quiet h)
  | endLife => exact stepped_transact _ (quiet_effect hsound fun h => endLife_quiet h)
  | report status ok synced =>
    obtain ⟨hr, heffect⟩ := reportAt_effect hsound status ok synced
    exact ⟨map_ne_error _ hr, heffect⟩
  | schedule label booking ok => exact stepped_transact _ (quiet_effect hsound fun h => schedule_quiet h label booking)
  | unschedule label ok => exact stepped_transact _ (quiet_effect hsound fun h => unschedule_quiet h label)
  | fire label id nextUnixMs text ok =>
    exact stepped_transact _ (quiet_effect hsound fun h => fire_quiet h label id nextUnixMs text)
  | takeRung => exact stepped_transact _ (quiet_effect hsound fun h => takeRung_quiet h)
  | changeModel selected ok => exact stepped_transact _ (quiet_effect hsound fun h => changeModel_quiet h selected)
  | narrow model limit ok => exact stepped_transact _ (quiet_effect hsound fun h => narrow_quiet h model limit)
  | clear ok => exact stepped_transact _ (quiet_effect hsound fun h => clear_quiet h)
  | begin ok => exact stepped_own _ hsound (transact_effect hsound (fun _ => rfl) fun _ h => begin_moved h ok)
  | next pending expired ok =>
    refine stepped_own _ hsound (transact_effect hsound (fun _ => rfl) fun _ h => ?_)
    exact (next_moved h pending expired ok).mono fun _ _ hnext => hnext.1
  | drain ok => exact stepped_own _ hsound (quiet_effect hsound fun h => drain_moved h)
  | cancelExchange =>
    refine ⟨by simp [World.step], ?_⟩
    cases hpoisoned : w.shared.poisoned with
    | true => exact .dead rfl ⟨hpoisoned, rfl, rfl, fun h => h, fun h => h, fun h => h⟩ rfl rfl
    | false =>
      have h := hsound hpoisoned
      exact .moved hpoisoned { h.advances_refl with replays := { h with } } (.steady rfl ⟨rfl, rfl, by simp⟩)
  | append ok =>
    simp only [World.step]
    split
    · exact ⟨by simp, latched_effect hsound⟩
    · refine ⟨by simp, ?_⟩
      rcases Bool.eq_false_or_eq_true w.shared.poisoned with hpoisoned | hpoisoned
      · exact .dead rfl ⟨hpoisoned, rfl, rfl, fun h => h, fun h => h, fun h => h⟩ rfl rfl
      · have h := hsound hpoisoned
        have hadv : Advances seed w.shared { w.shared with
            journal := { w.shared.journal with commits := w.shared.journal.commits + 1 } } [] :=
          { h.advances_refl with
            replays := { h with named := h.named_le_succ }
            commits := Nat.le_succ _
            records := (List.append_nil _).symm }
        exact .moved hpoisoned hadv (.steady rfl ⟨rfl, rfl, by simp⟩)
  | sync synced =>
    simp only [World.step]
    split
    · exact ⟨by simp, latched_effect hsound⟩
    · exact ⟨by simp, .refl hsound⟩
  | panic left => exact absurd rfl (hpanic left)
  | teardown =>
    simp only [World.step]
    split
    · exact ⟨by simp, (quiet_effect hsound fun h => endLife_quiet h).2⟩
    · exact ⟨by simp, .refl hsound⟩
  | settle =>
    simp only [World.step]
    split
    · have hget : ∀ h : w.shared.Replays seed, Run.Ends (Run.get : Txn Shared) w.shared (Quiet seed w.shared) :=
        fun h => Run.ends_get (h.quiet_refl (by simp))
      exact ⟨by simp, (quiet_effect hsound hget).2⟩
    · exact ⟨by simp, .refl hsound⟩
  | lastReport reason ok synced =>
    simp only [World.step]
    split
    · obtain ⟨hr, heffect⟩ := reportAt_effect hsound (.failed reason) ok synced
      exact ⟨map_ne_error _ hr, heffect⟩
    · exact ⟨by simp, .refl hsound⟩
  | unwind =>
    simp only [World.step]
    split
    · exact ⟨by simp, dropped_effect hsound⟩
    · exact ⟨by simp, .refl hsound⟩
  | drop =>
    simp only [World.step]
    split
    · exact ⟨by simp, dropped_effect hsound⟩
    · exact ⟨by simp, .refl hsound⟩

theorem step_effect (hsound : Sound seed w.shared) (event : Event) :
    Effect seed w.shared (w.step event).2.shared (event.hit w.shared) := by
  by_cases hpanic : ∃ left, event = .panic left
  · obtain ⟨left, rfl⟩ := hpanic
    simp only [World.step]
    split
    · exact .refl hsound
    · exact .dead rfl ⟨rfl, rfl, rfl, fun h => h, fun h => h, fun h => h⟩ rfl rfl
  · exact (step_stepped hsound event fun left h => hpanic ⟨left, h⟩).2

theorem run_sound (hsound : Sound seed w.shared) (events : List Event) : Sound seed (w.run events).shared := by
  induction events generalizing w with
  | nil => exact hsound
  | cons event events ih => exact ih (step_effect hsound event).sound

theorem run_records (hsound : Sound seed w.shared) (events : List Event) :
    w.shared.journal.records <+: (w.run events).shared.journal.records := by
  induction events generalizing w with
  | nil => exact List.prefix_rfl
  | cons event events ih =>
    have heffect := step_effect hsound event
    exact heffect.records.trans (ih heffect.sound)

theorem run_replays (hsound : Sound seed w.shared) (hlog : ∃ folds, seed.replay w.shared.journal.records = .ok folds)
    (events : List Event) : ∃ folds, seed.replay (w.run events).shared.journal.records = .ok folds := by
  induction events generalizing w with
  | nil => exact hlog
  | cons event events ih =>
    have heffect := step_effect hsound event
    exact ih heffect.sound (heffect.replays hlog)

end Effects

/-! ## Birth -/

theorem step_named {m m' : Mail} {commit n : ℕ} {control : Control} (hcommit : commit ≤ n) (hnamed : m.named ≤ n)
    (h : m.step commit control = .ok m') : m'.named ≤ n := by
  have hremove : ∀ {posts : NonEmpty PostId} {taken : Bool}, m.remove posts taken = .ok m' → m'.named ≤ n := by
    intro posts taken hposts
    refine Fallible.foldlM_invariant (P := fun m : Mail => m.named ≤ n) (Q := fun _ => True) ?_
      (fun _ _ => trivial) hnamed hposts
    intro s id t hs _ hone
    unfold Mail.removeOne at hone
    split at hone
    · cases hone
    · cases hone
      exact hs
  cases control with
  | jobOpened =>
    simp only [Mail.step] at h
    split at h
    · cases h
    · cases h
      exact hcommit
  | jobSettled job stopped =>
    simp only [Mail.step] at h
    split at h
    · cases h
    · cases h
      exact hnamed
  | posted post =>
    simp only [Mail.step] at h
    split at h
    · cases h
    · cases h
      exact hcommit
  | taken posts => exact hremove h
  | withdrawn posts => exact hremove h
  | sessionStarted _ | sessionResumed _ _ | status _ | scheduled _ _ | unscheduled _ | modelChanged _
  | windowNarrowed _ _ =>
    cases h
    exact hnamed

theorem folds_step_mail {f f' : Folds} {commit : ℕ} {control : Control} (h : f.step commit control = .ok f') :
    f.mail.step commit control = .ok f'.mail := by
  unfold Folds.step at h
  split at h
  · cases h
  · obtain ⟨mail, hmail, h⟩ := Fallible.bind_eq_ok.mp h
    obtain ⟨schedules, _, h⟩ := Fallible.bind_eq_ok.mp h
    obtain ⟨model, _, h⟩ := Fallible.bind_eq_ok.mp h
    cases h
    exact hmail

/-- An agent's birth: the folds of the log so far, reconciled. -/
structure Birth where
  started : Started
  records : List (ℕ × Control)
  folds : Folds
  commits : ℕ
  failed : Bool
  live : Bool
  admission : Admission
  parent : Option AgentId
  replays : (Folds.seed started).replay records = .ok folds
  numbered : ∀ record ∈ records, record.1 ≤ commits
  pending : folds.mail.pending.entries = []
  idle : folds.mail.job = none
  unbooked : folds.schedules.entries = []
  addressed : parent = folds.mail.parent

namespace Birth

def seed (b : Birth) : Folds := Folds.seed b.started

def world (b : Birth) : World where
  phase := .attending
  shared := {
    admission := b.admission
    parent := b.parent
    live := b.live && !b.failed
    poisoned := false
    owned := true
    failureNoticed := false
    journal := ⟨b.commits, b.failed, b.records⟩
    cell := ⟨b.folds, [], false, false, none, SortedMap.empty⟩
    notices := [] }

theorem named_le (b : Birth) : b.folds.mail.named ≤ b.commits := by
  refine Fallible.foldlM_invariant (P := fun f : Folds => f.mail.named ≤ b.commits)
    (Q := fun record : ℕ × Control => record.1 ≤ b.commits) ?_ b.numbered (Nat.zero_le _) b.replays
  intro f record f' hnamed hcommit hstep
  exact step_named hcommit hnamed (folds_step_mail hstep)

theorem sound [Wording] (b : Birth) : Sound b.seed b.world.shared := by
  intro _
  refine ⟨b.replays, b.named_le, ?_, ?_, ?_⟩
  · intro e he
    have he' : e ∈ b.folds.mail.pending.entries := he
    rw [b.pending] at he'
    cases he'
  · exact List.nil_sublist _
  · intro _
    exact b.pending.symm

end Birth

def helper : Birth where
  started := ⟨some 1, true, ⟨"m", none⟩⟩
  records := []
  folds := Folds.seed ⟨some 1, true, ⟨"m", none⟩⟩
  commits := 1
  failed := false
  live := true
  admission := .parent
  parent := some 1
  replays := rfl
  numbered := by simp
  pending := rfl
  idle := rfl
  unbooked := rfl
  addressed := rfl

@[reducible] def plain : Wording := ⟨fun _ => "0s", fun _ => "[surface]"⟩

/-- What agent 1 asks of it. -/
def errand : Queued := .input (.task ⟨1, "root", "count"⟩)

section Theorem
variable [Wording]

/-- The cell is always the replay of its log: no transaction panics, the folds are those of
the records appended, and while the owner lives the queue holds exactly the pending posts,
in the order of their ids, each as its payload describes itself. -/
theorem cell_replays_log (b : Birth) (events : List Event) :
    (∀ m ∈ b.world.moments events, (∀ left, m.event ≠ .panic left) → m.answer ≠ .error .panicked) ∧
    ((b.world.run events).shared.poisoned = false →
      b.seed.replay (b.world.run events).shared.journal.records = .ok (b.world.run events).shared.cell.folds ∧
      ((b.world.run events).shared.owned = true →
        recorded (b.world.run events).shared.cell.queue = (b.world.run events).shared.mail.pending.entries ∧
        (recorded (b.world.run events).shared.cell.queue).Pairwise fun a c => a.1 < c.1)) := by
  constructor
  · intro m hm hpanic
    obtain ⟨earlier, event, later, rfl, rfl⟩ := World.mem_moments hm
    exact (step_stepped (run_sound b.sound earlier) event hpanic).1
  · intro hpoisoned
    have h := run_sound b.sound events hpoisoned
    refine ⟨h.replay, fun howned => ⟨h.owned howned, ?_⟩⟩
    rw [h.owned howned]
    exact SortedMap.ascending _

end Theorem

/-- One post is taken, one is steered in, and the append of a third fails. -/
theorem cell_replays_log_steered : (@recorded plain (@World.run plain helper.world
      [.post errand true, .gone 7, .next false false true, .post (.input (.human "stop")) true,
        .post (.input (.human "now")) false]).shared.cell.queue).Pairwise fun a c => a.1 < c.1 := by
  obtain ⟨_, h⟩ := @cell_replays_log plain helper
    [.post errand true, .gone 7, .next false false true, .post (.input (.human "stop")) true,
      .post (.input (.human "now")) false]
  exact ((h rfl).2 rfl).2

end Ral.Mailbox
