import Ral.Schedule.Registry

/-! # What a transaction does to the bookings

Each of the cell's own transactions on bookings, by what it leaves of them and of the queued
wakeups. A failed append leaves both as they were.
-/

namespace Ral.Mailbox
open Ral.Data Ral.Session Ral.Record
open Run (Ends Sat)

section
variable [Wording] {seed : Folds} {s s' : Shared} {α : Type}

/-- A cell that is not poisoned, and replays its log. -/
structure Shared.Well (seed : Folds) (s : Shared) : Prop where
  sound : s.poisoned = false
  replays : s.Replays seed

theorem Quiet.well {r : Except Fault α} (hwell : s.Well seed) (h : Quiet seed s r s') :
    r ≠ .error .panicked ∧ s'.Well seed := by
  obtain ⟨hr, line, hadv, _⟩ := h
  exact ⟨hr, hadv.poisoned.trans hwell.sound, hadv.replays⟩

omit [Wording]

def Wrote (s : Shared) (line : List Control) : Except Fault α → Shared → Prop
  | .ok _, s' => s.journal.failed = false ∧
      ∃ folds, s.cell.folds.stepLine (s.journal.commits + 1) line = .ok folds ∧ Books folds.schedules s s'
  | .error e, s' => Aside s s' ∧ (e ≠ .panicked → s'.journal.failed = true)

theorem commitTo_wrote (line : NonEmpty Control) (ok : Bool) :
    Sat (commitTo line ok) s fun r s' => Wrote s line.toList r s' ∧ s'.cell.queue = s.cell.queue := by
  intro r s' hx
  unfold commitTo at hx
  split at hx
  · cases hx
    exact ⟨⟨.latched s, fun _ => rfl⟩, rfl⟩
  · next hok =>
      have hfailed : s.journal.failed = false := by
        cases hf : s.journal.failed <;> simp [hf] at hok ⊢
      have hlatch : s.journal.failed = true → False := fun hs => absurd (hfailed.symm.trans hs) Bool.false_ne_true
      dsimp only at hx
      split at hx
      · cases hx
        exact ⟨⟨⟨rfl, .refl _, rfl, fun hs => (hlatch hs).elim⟩, fun hne => absurd rfl hne⟩, rfl⟩
      · next folds hfolds =>
          cases hx
          exact ⟨⟨hfailed, folds, hfolds, rfl, .refl _, rfl, fun hs => (hlatch hs).elim⟩, rfl⟩

theorem commit_wrote {line : NonEmpty Control} (hposts : line.toList.any isPosted = false) (ok : Bool) :
    Sat (commit line ok) s fun r s' => Wrote s line.toList r s' ∧ s'.cell.queue.length ≤ s.cell.queue.length := by
  unfold commit
  rw [if_neg (by simp [hposts])]
  apply Run.sat_bind
  refine (commitTo_wrote line ok).mono fun r t hwrote => ?_
  obtain ⟨hwrote, hqueue⟩ := hwrote
  cases r with
  | error e => exact ⟨hwrote, hqueue ▸ le_refl _⟩
  | ok id =>
    obtain ⟨hfailed, folds, hfolds, hbooks⟩ := hwrote
    refine Run.sat_act ⟨⟨hfailed, folds, hfolds, ?_⟩, ?_⟩
    · have hprune := prune_aside t
      exact ⟨hprune.schedules.trans hbooks.schedules, hprune.wakeups.trans hbooks.wakeups,
        hprune.poisoned.trans hbooks.poisoned, fun hs => hprune.latch (hbooks.latch hs)⟩
    · show (t.cell.queue.filter _).length ≤ _
      rw [← hqueue]
      exact List.length_filter_le _ _

/-! ## Booking -/

def Scheduling (s : Shared) (label : String) (booking : Schedule) : Except Fault Bool → Shared → Prop
  | .ok true, s' => s.journal.failed = false ∧ s.schedules.get label = none ∧
      Books (s.schedules.insert label booking) s s'
  | .ok false, s' => s' = s
  | .error _, s' => Aside s s'

theorem schedule_scheduling (label : String) (booking : Schedule) (ok : Bool) :
    Sat (schedule label booking ok) s (Scheduling s label booking) := by
  refine Run.sat_bind (Run.sat_get ?_)
  rw [Run.then_ok]
  split
  · exact Run.sat_pure rfl
  · next habsent =>
      apply Run.sat_bind
      refine (commit_wrote rfl ok).mono fun r t hwrote => ?_
      cases r with
      | error e => exact hwrote.1.1
      | ok taken =>
        obtain ⟨⟨hfailed, folds, hfolds, hbooks⟩, _⟩ := hwrote
        cases (Folds.stepLine_one (Folds.step_scheduled _ _ label booking)).symm.trans hfolds
        exact Run.sat_pure ⟨hfailed, by simpa using habsent, hbooks⟩

/-- What a cancellation leaves. -/
def Unscheduling (s : Shared) (label : String) : Except Fault Bool → Shared → Prop
  | .ok _, s' => Books (s.schedules.erase label) s s'
  | .error _, s' => Aside s s' ∧ s'.journal.failed = true

theorem unschedule_unscheduling (label : String) (ok : Bool) :
    Sat (unschedule label ok) s fun r s' => r ≠ .error .panicked → Unscheduling s label r s' := by
  refine Run.sat_bind (Run.sat_get ?_)
  rw [Run.then_ok]
  split
  · next habsent =>
      refine Run.sat_pure fun _ => ?_
      have hnone : s.schedules.get label = none := by simpa using habsent
      exact ⟨(SortedMap.erase_of_absent hnone).symm, .refl _, rfl, fun h => h⟩
  · next hbooked =>
      have hsome : (s.cell.folds.schedules.get label).isSome := by
        simpa [Shared.schedules, Option.isSome_iff_ne_none] using hbooked
      apply Run.sat_bind
      refine (commit_wrote rfl ok).mono fun r t hwrote => ?_
      cases r with
      | error e =>
        exact fun hne => ⟨hwrote.1.1, hwrote.1.2 fun he => hne (he ▸ rfl)⟩
      | ok taken =>
        obtain ⟨⟨_, folds, hfolds, hbooks⟩, _⟩ := hwrote
        cases (Folds.stepLine_one (Folds.step_unscheduled hsome _)).symm.trans hfolds
        exact Run.sat_pure fun _ => hbooks

/-! ## Firing -/

def Schedules.rebooked (s : Schedules) (label : String) (booking : Schedule) (next : Option ℕ) (posted : Bool) :
    Schedules :=
  match next with
  | some nextUnixMs => s.insert label { booking with nextUnixMs, fires := booking.fires + posted.toNat }
  | none => s.erase label

theorem schedules_step_rebooked {bookings bookings' : Schedules} {label : String} {booking : Schedule}
    {next : Option ℕ} {posted : Bool}
    (h : Schedules.step bookings (Mailbox.rebooked label booking next posted) = .ok bookings') :
    bookings' = Schedules.rebooked bookings label booking next posted := by
  cases next with
  | some n => exact (Except.ok.inj h).symm
  | none =>
    have hstep : Schedules.step bookings (.unscheduled label) = .ok bookings' := h
    unfold Schedules.step at hstep
    dsimp only at hstep
    split at hstep
    · cases hstep
    · exact (Except.ok.inj hstep).symm

/-- What firing a booking leaves: one wakeup more, unless one of its id is queued. -/
structure Fires (s : Shared) (label : String) (id : ScheduleId) (booking : Schedule) (next : Option ℕ) (s' : Shared) :
    Prop where
  unlatched : s.journal.failed = false
  schedules : s'.schedules = Schedules.rebooked s.schedules label booking next (decide (id ∉ wakeups s.cell.queue))
  wakeups : (wakeups s'.cell.queue).Sublist (wakeups s.cell.queue ++ gained s s')
  gained : gained s s' = if id ∈ Mailbox.wakeups s.cell.queue then [] else [id]
  poisoned : s'.poisoned = s.poisoned

theorem fire_fires [Wording] {label : String} {booking : Schedule} (hbooked : s.schedules.get label = some booking)
    (id : ScheduleId) (next : Option ℕ) (text : String) (ok : Bool) :
    Sat (fire label id next text ok) s fun r s' =>
      match r with
      | .ok _ => Fires s label id booking next s'
      | .error _ => Aside s s' := by
  refine Run.sat_bind (Run.sat_get ?_)
  rw [Run.then_ok]
  rw [hbooked]
  dsimp only
  have hqueued : (!(s.cell.queue.any (isQueuedWakeup id))) = decide (id ∉ wakeups s.cell.queue) := by
    rw [Bool.eq_iff_iff, Bool.not_eq_true', ← Bool.not_eq_true, any_isQueuedWakeup, decide_eq_true_iff]
  rw [hqueued]
  split
  · next hposts =>
      have hnot : id ∉ wakeups s.cell.queue := of_decide_eq_true hposts
      apply Run.sat_bind
      apply Run.sat_bind
      refine (commitTo_wrote _ ok).mono fun r t hwrote => ?_
      obtain ⟨hwrote, hqueue⟩ := hwrote
      cases r with
      | error e => exact hwrote.1
      | ok post =>
        obtain ⟨hfailed, folds, hfolds, hbooks⟩ := hwrote
        obtain ⟨posted, hposted, hrest⟩ := Fallible.foldlM_cons_eq_ok.mp hfolds
        obtain ⟨changed, hchanged, hnil⟩ := Fallible.foldlM_cons_eq_ok.mp hrest
        cases hnil
        have hkept : s.schedules = posted.schedules := Except.ok.inj (folds_step_schedules hposted)
        have hrebooked := schedules_step_rebooked (folds_step_schedules hchanged)
        rw [← hkept] at hrebooked
        refine Run.sat_bind (Run.sat_modify (Run.sat_pure (Run.sat_pure ?_)))
        have hgained : gained s (t.setQueue (t.cell.queue ++ [.posted post (.input (.wakeup id text))])) = [id] := by
          unfold gained
          rw [hqueue]
          simp [Shared.setQueue, wakeups, Item.wakeup?]
        refine ⟨hfailed, hbooks.schedules.trans hrebooked, ?_, ?_, hbooks.poisoned⟩
        · rw [hgained]
          show (wakeups (t.cell.queue ++ _)).Sublist _
          rw [hqueue, wakeups_append]
          exact .refl _
        · rw [hgained, if_neg hnot]
  · next hposts =>
      have hmem : id ∈ wakeups s.cell.queue := by simpa using hposts
      have hkind : (NonEmpty.toList ⟨Mailbox.rebooked label booking next (decide (id ∉ wakeups s.cell.queue)), []⟩).any
          isPosted = false := by
        simp [NonEmpty.toList, (rebooked_kind label booking next _).1]
      apply Run.sat_bind
      refine (commit_wrote hkind ok).mono fun r t hwrote => ?_
      obtain ⟨hwrote, hlength⟩ := hwrote
      cases r with
      | error e => exact hwrote.1
      | ok taken =>
        obtain ⟨hfailed, folds, hfolds, hbooks⟩ := hwrote
        obtain ⟨changed, hchanged, hnil⟩ := Fallible.foldlM_cons_eq_ok.mp hfolds
        cases hnil
        have hgained : gained s t = [] := by
          unfold gained
          rw [List.drop_eq_nil_of_le hlength]
          rfl
        refine Run.sat_pure ⟨hfailed, ?_, ?_, ?_, hbooks.poisoned⟩
        · exact hbooks.schedules.trans (schedules_step_rebooked (folds_step_schedules hchanged))
        · rw [hgained, List.append_nil]
          exact hbooks.wakeups
        · rw [hgained, if_pos hmem]

/-! ## Retiring -/

/-- The bookings are all gone, or stand because the writer failed. -/
structure Retires (s s' : Shared) : Prop where
  schedules : s'.schedules = SortedMap.empty ∨ s'.schedules = s.schedules ∧ s'.journal.failed = true
  wakeups : (wakeups s'.cell.queue).Sublist (wakeups s.cell.queue)

theorem Retires.notices {t : Shared} (h : Retires s t) (notices : List Notice) (failureNoticed : Bool) :
    Retires s { t with notices, failureNoticed } := ⟨h.schedules, h.wakeups⟩

theorem commit_retires {line : NonEmpty Control} {folds : Folds}
    (hkinds : ∀ control ∈ line.toList, isPosted control = false ∧ control.isJob = false)
    (hline : s.cell.folds.stepLine (s.journal.commits + 1) line.toList = .ok folds)
    (hempty : folds.schedules = SortedMap.empty) (ok : Bool) :
    Sat (commit line ok) s fun r s' => r ≠ .error .panicked → Retires s s' := by
  have hposts : line.toList.any isPosted = false := by
    rw [List.any_eq_false]
    intro control hcontrol
    simp [(hkinds control hcontrol).1]
  refine (commit_wrote hposts ok).mono fun r t hwrote hne => ?_
  cases r with
  | error e => exact ⟨Or.inr ⟨hwrote.1.1.schedules, hwrote.1.2 fun he => hne (he ▸ rfl)⟩, hwrote.1.1.wakeups⟩
  | ok taken =>
    obtain ⟨⟨_, folds', hfolds, hbooks⟩, _⟩ := hwrote
    cases hline.symm.trans hfolds
    exact ⟨Or.inl (hbooks.schedules.trans hempty), hbooks.wakeups⟩

theorem clear_retires [Wording] (h : s.Replays seed) (ok : Bool) :
    Sat (clear ok) s fun r s' => r ≠ .error .panicked → Retires s s' := by
  have hline := stepLine_cleared (h.nodup_postsWhere Queued.clears) fun id hid => h.pending_postsWhere hid
  have hdeparted (t : Shared) : (wakeups (t.cell.queue.filter fun item => !isGone item)).Sublist (wakeups t.cell.queue) :=
    wakeups_sublist List.filter_sublist
  refine Run.sat_bind (Run.sat_get ?_)
  rw [Run.then_ok]
  cases hcollect : collect ((collect (postsWhere Queued.clears s.cell.queue)).toList.map Control.withdrawn ++
      s.retireSchedules) with
  | none =>
    simp only [hcollect]
    rw [eq_nil_of_collect hcollect] at hline
    exact Run.sat_modify fun _ => ⟨Or.inl (congrArg Folds.schedules (Except.ok.inj hline)), hdeparted s⟩
  | some line =>
    simp only [hcollect]
    have hkinds := cleared_kinds s
    rw [← toList_of_collect hcollect] at hline hkinds
    apply Run.sat_bind
    refine (commit_retires hkinds hline rfl ok).mono fun r t hretires => ?_
    cases r with
    | error e => exact fun hne => hretires (by simpa using hne)
    | ok taken =>
      have hretired := hretires (by simp)
      exact Run.sat_modify fun _ => ⟨hretired.schedules, (hdeparted t).trans hretired.wakeups⟩

theorem reportFailure_retires {t : Shared} (h : Retires s t) : Sat reportFailure t fun _ s' => Retires s s' := by
  apply Run.sat_modify
  split
  · exact h
  · exact h.notices _ _

theorem report_retires [Wording] (h : s.Replays seed) (status : ChildStatus) (ok synced : Bool) :
    Sat (report status ok synced) s fun r s' => r ≠ .error .panicked → Retires s s' := by
  have hwritten : Sat (do let _ ← commit (s.reportLine status) ok; sync synced : Txn Unit) s
      fun r s' => r ≠ .error .panicked → Retires s s' := by
    apply Run.sat_bind
    refine (commit_retires (reportLine_kinds s status) (stepLine_report h status) rfl ok).mono fun r t hretires => ?_
    cases r with
    | error e => exact fun hne => hretires (by simpa using hne)
    | ok taken =>
      have hretired := hretires (by simp)
      intro r' t' hsync _
      unfold sync at hsync
      dsimp only at hsync
      split at hsync
      · cases hsync
        exact ⟨hretired.schedules.imp_right fun hs => ⟨hs.1, rfl⟩, hretired.wakeups⟩
      · cases hsync
        exact hretired
  refine Run.sat_bind (Run.sat_get ?_)
  rw [Run.then_ok]
  apply Run.sat_bind
  refine Run.sat_attempt (hwritten.mono fun r t hretires => ?_)
  rw [Run.then_ok]
  split
  · exact Run.sat_fail fun hne => absurd rfl hne
  · next failure hne =>
      have hretired := hretires (by simpa using hne)
      split
      · refine Run.sat_bind ((reportFailure_retires hretired).mono fun r t' hretired' => ?_)
        cases r with
        | error e => exact fun _ => hretired'
        | ok u => exact Run.sat_fail fun _ => hretired'
      · exact Run.sat_bind (Run.sat_pure (Run.sat_fail fun _ => hretired))
  · have hretired := hretires (by simp)
    split
    · exact Run.sat_modify fun _ => hretired.notices _ _
    · exact Run.sat_pure fun _ => hretired

end

end Ral.Mailbox
