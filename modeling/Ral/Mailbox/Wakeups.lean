import Ral.Mailbox.Life

/-! # Queued wakeups

What the transactions that book nothing leave of the booked wakeups and of those queued: the
bookings are as they were, and the queue has no wakeup that it had not.
-/

namespace Ral.Mailbox
open Ral.Data Ral.Session Ral.Record
open Run (Keeps keeps_bind keeps_pure keeps_fail keeps_get keeps_modify keeps_act keeps_attempt keeps_mapError keeps_ite)

def Item.wakeup? : Item → Option ScheduleId
  | .posted _ (.input (.wakeup id _)) => some id
  | _ => none

def wakeups (queue : List Item) : List ScheduleId := queue.filterMap Item.wakeup?

theorem wakeups_append (xs ys : List Item) : wakeups (xs ++ ys) = wakeups xs ++ wakeups ys := List.filterMap_append

theorem wakeups_sublist {xs ys : List Item} (h : xs.Sublist ys) : (wakeups xs).Sublist (wakeups ys) := h.filterMap _

theorem isQueuedWakeup_iff {id : ScheduleId} {item : Item} : isQueuedWakeup id item = true ↔ item.wakeup? = some id := by
  cases item with
  | gone _ => simp [isQueuedWakeup, Item.wakeup?]
  | posted _ queued =>
    cases queued with
    | command _ => simp [isQueuedWakeup, Item.wakeup?]
    | input input => cases input <;> simp [isQueuedWakeup, Item.wakeup?]

theorem any_isQueuedWakeup {id : ScheduleId} {queue : List Item} :
    queue.any (isQueuedWakeup id) = true ↔ id ∈ wakeups queue := by
  simp [wakeups, isQueuedWakeup_iff]

theorem wakeup?_of_not {queued : Queued} (h : queued.isWakeup = false) (id : PostId) :
    (Item.posted id queued).wakeup? = none := by
  cases queued with
  | command _ => rfl
  | input input => cases input <;> first | rfl | cases h

def gained (s s' : Shared) : List ScheduleId := wakeups (s'.cell.queue.drop s.cell.queue.length)

/-! ## Lines -/

def Control.isBooking : Control → Bool
  | .scheduled _ _ | .unscheduled _ => true
  | _ => false

theorem folds_step_schedules {f f' : Folds} {commit : ℕ} {control : Control} (h : f.step commit control = .ok f') :
    f.schedules.step control = .ok f'.schedules := by
  unfold Folds.step at h
  split at h
  · cases h
  · obtain ⟨mail, _, h⟩ := Fallible.bind_eq_ok.mp h
    obtain ⟨schedules, hschedules, h⟩ := Fallible.bind_eq_ok.mp h
    obtain ⟨model, _, h⟩ := Fallible.bind_eq_ok.mp h
    cases h
    exact hschedules

theorem schedules_step_of_not {s : Schedules} {control : Control} (h : control.isBooking = false) :
    s.step control = .ok s := by
  cases control <;> first | rfl | cases h

theorem stepLine_schedules {f f' : Folds} {commit : ℕ} {line : List Control}
    (h : f.stepLine commit line = .ok f') (hline : ∀ control ∈ line, control.isBooking = false) :
    f'.schedules = f.schedules := by
  refine Fallible.foldlM_invariant (P := fun g : Folds => g.schedules = f.schedules)
    (Q := fun control : Control => control.isBooking = false) ?_ hline rfl h
  intro g control g' hg hcontrol hstep
  have hsame := folds_step_schedules hstep
  rw [schedules_step_of_not hcontrol] at hsame
  exact (Except.ok.inj hsame).symm.trans hg

/-! ## Transactions -/

/-- The bookings become `schedules`, no wakeup is queued, and what was broken stays so. -/
structure Books (schedules : Schedules) (s s' : Shared) : Prop where
  schedules : s'.schedules = schedules
  wakeups : (wakeups s'.cell.queue).Sublist (wakeups s.cell.queue)
  poisoned : s'.poisoned = s.poisoned
  latch : s.journal.failed = true → s'.journal.failed = true

abbrev Aside (s s' : Shared) : Prop := Books s.schedules s s'

namespace Aside

theorem refl (s : Shared) : Aside s s := ⟨rfl, .refl _, rfl, fun h => h⟩

theorem trans {s t u : Shared} (h : Aside s t) (h' : Aside t u) : Aside s u where
  schedules := h'.schedules.trans h.schedules
  wakeups := h'.wakeups.trans h.wakeups
  poisoned := h'.poisoned.trans h.poisoned
  latch hs := h'.latch (h.latch hs)

instance : IsPreorder Shared Aside where
  refl := refl
  trans _ _ _ := trans

theorem setQueue {s : Shared} {queue : List Item} (h : (Mailbox.wakeups queue).Sublist (Mailbox.wakeups s.cell.queue)) :
    Aside s (s.setQueue queue) := ⟨rfl, h, rfl, fun h => h⟩

theorem latched (s : Shared) : Aside s s.latched := ⟨rfl, .refl _, rfl, fun _ => rfl⟩

end Aside

theorem commitTo_aside {line : NonEmpty Control} (h : ∀ control ∈ line.toList, control.isBooking = false) (ok : Bool) :
    Keeps Aside (commitTo line ok) := by
  intro s r s' hx
  unfold commitTo at hx
  split at hx
  · cases hx
    exact .latched s
  · next hok =>
      have hfailed : s.journal.failed = false := by
        cases hf : s.journal.failed <;> simp [hf] at hok ⊢
      dsimp only at hx
      split at hx
      · cases hx
        exact ⟨rfl, .refl _, rfl, fun hs => absurd (hfailed.symm.trans hs) Bool.false_ne_true⟩
      · next folds hfolds =>
          cases hx
          exact ⟨stepLine_schedules hfolds h, .refl _, rfl,
            fun hs => absurd (hfailed.symm.trans hs) Bool.false_ne_true⟩

theorem prune_aside (s : Shared) : Aside s s.prune.2 := .setQueue (wakeups_sublist List.filter_sublist)

theorem commit_aside {line : NonEmpty Control} (h : ∀ control ∈ line.toList, control.isBooking = false) (ok : Bool) :
    Keeps Aside (commit line ok) :=
  keeps_ite (keeps_fail _) (keeps_bind (commitTo_aside h ok) fun _ => keeps_act prune_aside)

theorem commit_one_aside {control : Control} (h : control.isBooking = false) (ok : Bool) :
    Keeps Aside (commit ⟨control, []⟩ ok) := by
  apply commit_aside
  intro other hother
  rw [show other = control from List.mem_singleton.mp hother]
  exact h

section Aside
variable [Wording]

theorem post_aside {item : Queued} (h : item.isWakeup = false) (ok : Bool) : Keeps Aside (post item ok) := by
  refine keeps_bind keeps_get fun s => keeps_ite (keeps_fail _) (keeps_ite (keeps_fail _) (keeps_mapError ?_))
  refine keeps_bind (commitTo_aside ?_ ok) fun id => ?_
  · intro control hcontrol
    rw [show control = .posted item.posted from List.mem_singleton.mp hcontrol]
    rfl
  · refine keeps_bind (keeps_modify fun t => .setQueue ?_) fun _ => keeps_pure _
    rw [wakeups_append]
    simp [wakeups, wakeup?_of_not h]

omit [Wording]

theorem gone_aside (id : AgentId) : Keeps Aside (gone id) := by
  apply keeps_modify
  intro s
  split
  · refine .setQueue ?_
    rw [wakeups_append]
    simp [wakeups, Item.wakeup?]
  · exact .refl s

theorem ring_aside (label : String) (id : ScheduleId) : Keeps Aside (ring label id) := by
  apply keeps_modify
  intro s
  split
  · exact ⟨rfl, .refl _, rfl, fun h => h⟩
  · exact .refl s

theorem takeRung_aside : Keeps Aside takeRung := keeps_act fun _ => ⟨rfl, .refl _, rfl, fun h => h⟩

theorem recallTexts_aside (ok : Bool) : Keeps Aside (recallTexts ok) := by
  refine keeps_bind keeps_get fun s => ?_
  dsimp only
  split
  · exact keeps_bind (commit_one_aside rfl ok) fun _ => keeps_pure _
  · exact keeps_pure _

theorem checkAvailable_aside : Keeps Aside checkAvailable := by
  intro s r s' hx
  cases hx
  exact .refl s

theorem recallLive_aside (ok : Bool) : Keeps Aside (recallLive ok) :=
  keeps_bind checkAvailable_aside fun _ => keeps_bind keeps_get fun _ =>
    keeps_ite (recallTexts_aside ok) (keeps_pure _)

theorem stop_aside (job : Option JobId) : Keeps Aside (stop job) := by
  apply keeps_act
  intro s
  dsimp only
  split
  · exact ⟨rfl, .refl _, rfl, fun h => h⟩
  · exact .refl s

theorem stopJob_aside (job : JobId) (ok : Bool) : Keeps Aside (stopJob job ok) :=
  keeps_bind checkAvailable_aside fun _ => keeps_bind (stop_aside _) fun _ =>
    keeps_ite (keeps_bind (recallTexts_aside ok) fun _ => keeps_pure _) (keeps_pure _)

theorem release_aside : Keeps Aside release := by
  apply keeps_act
  intro s
  split
  · exact .refl s
  · split
    · exact ⟨rfl, .refl _, rfl, fun h => h⟩
    · exact .refl s

theorem endLife_aside : Keeps Aside endLife := keeps_modify fun _ => ⟨rfl, .refl _, rfl, fun h => h⟩

theorem changeModel_aside (selected : Selected) (ok : Bool) : Keeps Aside (changeModel selected ok) :=
  keeps_bind (commit_one_aside rfl ok) fun _ => keeps_pure _

theorem narrow_aside (model : String) (limit : ℕ) (ok : Bool) : Keeps Aside (narrow model limit ok) :=
  keeps_bind keeps_get fun _ =>
    keeps_ite (keeps_pure _) (keeps_bind (commit_one_aside rfl ok) fun _ => keeps_pure _)

theorem begin_aside (ok : Bool) : Keeps Aside (begin ok) := by
  refine keeps_bind keeps_get fun s => keeps_ite (keeps_pure _) (keeps_ite ?_ (keeps_pure _))
  refine keeps_bind (keeps_attempt (commit_one_aside rfl ok)) fun r => ?_
  split
  · exact keeps_fail _
  · exact keeps_pure _
  · exact keeps_bind (keeps_modify fun _ => ⟨rfl, .refl _, rfl, fun h => h⟩) fun _ => keeps_pure _

theorem deliver_aside (ok : Bool) (posts : NonEmpty PostId) : Keeps Aside (take.deliver ok posts) := by
  refine keeps_bind (commit_one_aside rfl ok) fun taken => ?_
  split
  · exact keeps_pure _
  · exact keeps_pure _
  · exact keeps_fail _

theorem take_aside (index : ℕ) (ok : Bool) : Keeps Aside (take index ok) := by
  refine keeps_bind keeps_get fun s => ?_
  split
  · exact deliver_aside ok _
  · exact deliver_aside ok _
  · exact keeps_fail _
  · exact keeps_fail _

theorem eraseIdx_aside (s : Shared) (index : ℕ) : Aside s (s.setQueue (s.cell.queue.eraseIdx index)) :=
  .setQueue (wakeups_sublist (List.eraseIdx_sublist _ _))

theorem next_aside (pending expired ok : Bool) : Keeps Aside (next pending expired ok) := by
  refine keeps_bind keeps_get fun s => keeps_ite (keeps_pure _) (keeps_ite (keeps_pure _) ?_)
  split
  · exact keeps_fail _
  · split
    · exact keeps_bind (keeps_modify fun t => eraseIdx_aside t _) fun _ => keeps_pure _
    · refine keeps_bind (keeps_attempt (take_aside _ ok)) fun r => ?_
      split
      · exact keeps_fail _
      · exact keeps_pure _
      · exact keeps_pure _
      · exact keeps_bind (keeps_modify fun _ => ⟨rfl, .refl _, rfl, fun h => h⟩) fun _ => keeps_pure _
  · split
    · refine keeps_ite (keeps_bind (keeps_attempt (commit_one_aside rfl ok)) fun r => ?_) (keeps_pure _)
      split
      · exact keeps_fail _
      · exact keeps_pure _
      · exact keeps_bind keeps_get fun _ => keeps_pure _
    · exact keeps_ite (keeps_bind (keeps_modify fun _ => ⟨rfl, .refl _, rfl, fun h => h⟩) fun _ => keeps_pure _)
        (keeps_pure _)
    · exact keeps_pure _

theorem drainSlots_aside (slots : List Item) (taken : List Queued) : Keeps Aside (drainSlots slots taken) := by
  refine keeps_bind keeps_get fun s => keeps_ite ?_ (keeps_fail _)
  refine keeps_bind (keeps_modify fun t => .setQueue (wakeups_sublist (List.drop_sublist _ _))) fun _ => ?_
  split
  · exact keeps_pure _
  · exact keeps_fail _

theorem drain_aside (ok : Bool) : Keeps Aside (drain ok) := by
  refine keeps_bind keeps_get fun s => keeps_ite (keeps_pure _) ?_
  dsimp only
  split
  · exact keeps_bind (commit_one_aside rfl ok) fun _ => drainSlots_aside _ _
  · exact drainSlots_aside _ _

theorem transact_aside {α : Type} {x : Txn α} (hx : Keeps Aside x) {s : Shared}
    (h : (s.transact x).1 ≠ .error .panicked) : Aside s (s.transact x).2 := by
  unfold Shared.transact at h ⊢
  split at h
  · next hpoisoned =>
      rw [if_pos hpoisoned]
      exact .latched s
  · next hpoisoned =>
      rw [if_neg hpoisoned]
      split at h
      · exact absurd rfl h
      · next r s' _ hrun => exact hx s r s' hrun
      · exact absurd rfl h

theorem dropped_aside (s : Shared) : Aside s s.dropped := by
  unfold Shared.dropped
  split
  · exact ⟨rfl, .refl _, rfl, fun _ => rfl⟩
  · exact ⟨rfl, List.nil_sublist _, rfl, fun h => h⟩

end Aside

/-! ## Steps -/

/-- What the agent's registry of alarms has no part in. -/
def Event.isAside : Event → Bool
  | .post item _ => !item.isWakeup
  | .report .. | .schedule .. | .unschedule .. | .fire .. | .takeRung | .clear _ => false
  | .panic _ | .teardown | .lastReport .. | .unwind => false
  | _ => true

section Steps
variable {w : World}

theorem world_transact_aside {α : Type} {x : Txn α} (hx : Keeps Aside x) (answer : α → Answer)
    (h : (w.transact x answer).1 ≠ .error .panicked) : Aside w.shared (w.transact x answer).2.shared := by
  apply transact_aside hx
  intro hpanicked
  apply h
  show (w.shared.transact x).1.map answer = _
  rw [hpanicked]
  rfl

theorem own_aside {α : Type} {x : Txn α} (hx : Keeps Aside x) (answer : α → Answer)
    (h : (w.own x answer).1 ≠ .error .panicked) : Aside w.shared (w.own x answer).2.shared := by
  unfold World.own at h ⊢
  split
  · next howns =>
      rw [if_pos howns] at h
      exact world_transact_aside hx answer h
  · exact .refl _

/-- One step that the registry has no part in. -/
theorem step_aside [Wording] {event : Event} (hevent : event.isAside = true) (h : (w.step event).1 ≠ .error .panicked) :
    Aside w.shared (w.step event).2.shared := by
  cases event with
  | post item ok => exact world_transact_aside (post_aside (by simpa [Event.isAside] using hevent) ok) _ h
  | gone id => exact world_transact_aside (gone_aside id) _ h
  | ring label id =>
    simp only [World.step] at h ⊢
    split
    · exact .refl _
    · next hsound =>
        rw [if_neg hsound] at h
        exact world_transact_aside (ring_aside label id) _ h
  | recallTexts ok => exact world_transact_aside (recallLive_aside ok) _ h
  | stopCurrent => exact world_transact_aside (stop_aside none) _ h
  | stop job ok => exact world_transact_aside (stopJob_aside job ok) _ h
  | release => exact world_transact_aside release_aside _ h
  | endLife => exact world_transact_aside endLife_aside _ h
  | changeModel selected ok => exact world_transact_aside (changeModel_aside selected ok) _ h
  | narrow model limit ok => exact world_transact_aside (narrow_aside model limit ok) _ h
  | begin ok => exact own_aside (begin_aside ok) _ h
  | next pending expired ok => exact own_aside (next_aside pending expired ok) _ h
  | drain ok => exact own_aside (drain_aside ok) _ h
  | cancelExchange => exact ⟨rfl, .refl _, rfl, fun h => h⟩
  | append ok =>
    simp only [World.step]
    split
    · exact .latched _
    · exact ⟨rfl, .refl _, rfl, fun h => h⟩
  | sync synced =>
    simp only [World.step]
    split
    · exact .latched _
    · exact .refl _
  | settle =>
    simp only [World.step]
    split
    · refine transact_aside (keeps_get) ?_
      unfold Shared.transact
      split <;> simp [Run.get]
    · exact .refl _
  | drop =>
    simp only [World.step]
    split
    · exact dropped_aside _
    · exact .refl _
  | _ => cases hevent

end Steps

end Ral.Mailbox
