import Ral.Mailbox.Taking

/-! # The owner's transactions

Opening and settling a job, stopping one, and one pass of the owner's loop.
-/

namespace Ral.Mailbox
open Ral.Data Ral.Session Ral.Record

section
variable [Wording]

/-- Where a transaction leaves the job; `hit` is the job that it stopped. -/
inductive JobMove (s s' : Shared) (hit : Option JobId) (line : List Control) : Prop
  | steady : hit = none → Steady s s' line → JobMove s s' hit line
  | stops {job : JobId} : hit = some job → s.mail.job = some job → s'.mail.job = some job →
      s'.cell.stopped = true → (∀ control ∈ line, control.isJob = false) → JobMove s s' hit line
  | opens : hit = none → s.mail.job = none → s'.mail.job = some s'.journal.commits →
      s.mail.named < s'.journal.commits → s'.mail.named = s'.journal.commits → s'.cell.stopped = false →
      line = [.jobOpened] → JobMove s s' hit line
  | settles {job : JobId} : hit = none → s.mail.job = some job → s'.mail.job = none →
      s'.cell.stopped = s.cell.stopped → line = [.jobSettled job s.cell.stopped] → JobMove s s' hit line

/-- What any transaction but a report leaves. -/
def Moved {α : Type} (seed : Folds) (s : Shared) (hit : Option JobId) (r : Except Fault α) (s' : Shared) : Prop :=
  r ≠ .error .panicked ∧ ∃ line, Advances seed s s' line ∧ JobMove s s' hit line

variable {seed : Folds} {s s' : Shared}

theorem Quiet.moved {α : Type} {r : Except Fault α} (h : Quiet seed s r s') : Moved seed s none r s' := by
  obtain ⟨hr, line, hadv, hsteady⟩ := h
  exact ⟨hr, line, hadv, .steady rfl hsteady⟩

/-! ## Stopping and opening -/

def Shared.hit (s : Shared) (job : Option JobId) : Option JobId := if s.stops job then s.mail.job else none

def Shared.marked (s : Shared) : Shared :=
  { s with cell := { s.cell with stopped := true, exchange := s.cell.exchange.map fun _ => true } }

omit [Wording] in
theorem stops_job {job : Option JobId} (h : s.stops job = true) : ∃ openJob, s.mail.job = some openJob := by
  unfold Shared.stops at h
  rw [Bool.and_eq_true] at h
  obtain ⟨openJob, hopen, _⟩ := (Option.any_eq_true _ _).mp h.2
  exact ⟨openJob, hopen⟩

theorem Shared.Replays.marked (h : s.Replays seed) : s.marked.Replays seed := { h with }

theorem moved_of_marked {α : Type} {r : Except Fault α} {openJob : JobId} (hjob : s.mail.job = some openJob)
    (h : Quiet seed s.marked r s') : Moved seed s (some openJob) r s' := by
  obtain ⟨hr, line, hadv, hsteady⟩ := h
  refine ⟨hr, line, { hadv with }, .stops rfl hjob ?_ ?_ hsteady.records⟩
  · exact hsteady.job.trans hjob
  · exact hsteady.stopped

theorem stop_moved (h : s.Replays seed) (job : Option JobId) : Run.Ends (stop job) s (Moved seed s (s.hit job)) := by
  apply Run.ends_act
  unfold Shared.hit
  cases hstops : s.stops job with
  | true =>
    obtain ⟨openJob, hjob⟩ := stops_job hstops
    rw [if_pos rfl, if_pos rfl, hjob]
    exact moved_of_marked hjob (h.marked.quiet_refl (by simp))
  | false => exact (h.quiet_refl (by simp)).moved

theorem stopJob_moved (h : s.Replays seed) (job : JobId) (ok : Bool) :
    Run.Ends (stopJob job ok) s (Moved seed s (if s.journal.failed then none else s.hit (some job))) := by
  cases hfailed : s.journal.failed with
  | true =>
    refine Run.ends_bind ⟨.error .unavailable, s, by simp [checkAvailable, hfailed], ?_⟩
    exact (h.quiet_refl (by simp)).moved
  | false =>
    refine Run.ends_bind ⟨.ok (), s, by simp [checkAvailable, hfailed], ?_⟩
    refine Run.ends_bind (Run.ends_act ?_)
    unfold Shared.hit
    cases hstops : s.stops (some job) with
    | true =>
      obtain ⟨openJob, hjob⟩ := stops_job hstops
      simp only [if_true, Run.after_ok, Bool.false_eq_true, if_false]
      rw [hjob]
      refine Run.ends_bind ((recall_quiet h.marked).mono ?_)
      intro r s' hquiet
      cases r with
      | error e => exact moved_of_marked hjob ⟨by simpa using hquiet.1, hquiet.2⟩
      | ok texts => exact Run.ends_pure (moved_of_marked hjob ⟨by simp, hquiet.2⟩)
    | false =>
      simp only [Bool.false_eq_true, if_false, Run.after_ok]
      exact Run.ends_pure (h.quiet_refl (by simp)).moved

theorem begin_moved (h : s.Replays seed) (ok : Bool) : Run.Ends (begin ok) s (Moved seed s none) := by
  refine Run.ends_bind (Run.ends_get ?_)
  rw [Run.after_ok]
  split
  · exact Run.ends_pure (h.quiet_refl (by simp)).moved
  · split
    · next hidle =>
        have hjob : s.cell.folds.mail.job = none := Option.isNone_iff_eq_none.mp hidle
        have hline := Folds.stepLine_one (Folds.step_jobOpened hjob (named_lt_succ h))
        refine Run.ends_bind (Run.ends_attempt (ends_commit (by simp [NonEmpty.toList, isPosted]) hline ?_ ?_))
        · exact Run.ends_pure (h.quiet_latched (by simp)).moved
        · intro hfailed
          refine Run.ends_bind (Run.ends_modify (Run.ends_pure ⟨by simp, [.jobOpened], ?_, ?_⟩))
          · have hadv := h.advances_written [] hfailed hline rfl h.named_le_succ (le_refl _) (.of_eq rfl rfl rfl rfl)
            exact { hadv with replays := { hadv.replays with } }
          · exact .opens rfl hjob rfl (named_lt_succ h) rfl rfl rfl
    · exact Run.ends_pure (h.quiet_refl (by simp)).moved

/-! ## One pass of the loop -/

omit [Wording] in
/-- The first item that the owner may take. -/
theorem nextIndex_some {items : List Item} {index : ℕ} (h : s.nextIndex items = some (some index)) :
    ∃ before item after, items = before ++ item :: after ∧ before.length = index ∧
      s.admitted item = some true ∧ ∀ other ∈ before, s.admitted other = some false := by
  induction items generalizing index with
  | nil => cases h
  | cons item items ih =>
    unfold Shared.nextIndex at h
    cases hitem : s.admitted item with
    | none => simp [hitem] at h
    | some admitted =>
      cases admitted with
      | true =>
        simp only [hitem, Option.some.injEq] at h
        exact ⟨[], item, items, rfl, h, hitem, by simp⟩
      | false =>
        simp only [hitem, Option.map_eq_some_iff] at h
        obtain ⟨inner, hinner, hindex⟩ := h
        obtain ⟨place, rfl, rfl⟩ := hindex
        obtain ⟨before, found, after, rfl, rfl, hfound, hbefore⟩ := ih hinner
        refine ⟨item :: before, found, after, rfl, rfl, hfound, ?_⟩
        intro other hother
        rcases List.mem_cons.mp hother with rfl | hother
        · exact hitem
        · exact hbefore other hother

theorem nextIndex_ne_none {items : List Item}
    (h : ∀ id queued, .posted id queued ∈ items → s.mail.post id = some queued.posted) :
    s.nextIndex items ≠ none := by
  induction items with
  | nil => simp [Shared.nextIndex]
  | cons item items ih =>
    have hrest := ih fun id queued hitem => h id queued (List.mem_cons_of_mem _ hitem)
    obtain ⟨admitted, hadmitted⟩ : ∃ admitted, s.admitted item = some admitted := by
      cases item with
      | gone id => exact ⟨true, rfl⟩
      | posted id queued =>
        have hpost := h id queued List.mem_cons_self
        simp only [Shared.admitted, hpost, Option.map_some]
        repeat' split
        all_goals exact ⟨_, rfl⟩
    unfold Shared.nextIndex
    rw [hadmitted]
    cases admitted with
    | true => simp
    | false => simpa using hrest

/-- What a pass takes: the input that starts at the first admitted item. -/
structure Takes (seed : Folds) (s : Shared) (given : Queued) (s' : Shared) : Prop where
  taken : ∃ before stretch after posts, s.cell.queue = before ++ stretch ++ after ∧
    (∀ item ∈ before, s.admitted item = some false) ∧
    (∀ item ∈ stretch.head?, s.admitted item = some true) ∧
    OneInput stretch after given ∧ posts.toList = postIds stretch ∧
    Advances seed s s' [.taken posts] ∧ s'.cell.queue = before ++ stretch.filter isGone ++ after

/-- What a pass gives. -/
def Given (seed : Folds) (s : Shared) : Except Fault Next → Shared → Prop
  | .ok (.take input), s' => Takes seed s (.input input) s'
  | .ok (.command c), s' => Takes seed s (.command c) s'
  | .ok (.gone id), s' => ∃ before after, s.cell.queue = before ++ .gone id :: after ∧
      (∀ item ∈ before, s.admitted item = some false) ∧ s' = s.setQueue (before ++ after)
  | _, _ => True

theorem takes_moved {α : Type} {r : Except Fault α} (hr : r ≠ .error .panicked) {posts : NonEmpty PostId}
    (hadv : Advances seed s (s.took posts) [.taken posts]) (hsteady : Steady s (s.took posts) [.taken posts])
    {s' : Shared} (hs' : s' = { s.took posts with cell := { (s.took posts).cell with exchange := s'.cell.exchange } }) :
    Moved seed s none r s' := by
  refine ⟨hr, [.taken posts], ?_, ?_⟩
  · rw [hs']
    exact { hadv with replays := { hadv.replays with } }
  · rw [hs']
    exact .steady rfl { hsteady with }

theorem next_moved (h : s.Replays seed) (pending expired ok : Bool) :
    Run.Ends (next pending expired ok) s fun r s' => Moved seed s none r s' ∧ Given seed s r s' := by
  have hposts : ∀ id queued, .posted id queued ∈ s.cell.queue → s.mail.post id = some queued.posted :=
    fun id queued hitem => h.pending_of_mem hitem
  have hstay : ∀ r : Except Fault Next, r ≠ .error .panicked → Moved seed s none r s :=
    fun r hr => (h.quiet_refl hr).moved
  refine Run.ends_bind (Run.ends_get ?_)
  rw [Run.after_ok]
  split
  · exact Run.ends_pure ⟨hstay _ (by simp), trivial⟩
  split
  · exact Run.ends_pure ⟨hstay _ (by simp), trivial⟩
  split
  · next hnone => exact absurd hnone (nextIndex_ne_none hposts)
  · next index hindex =>
      obtain ⟨before, item, after, hqueue, hlength, hadmitted, hbefore⟩ := nextIndex_some hindex
      subst hlength
      have hget : s.cell.queue[before.length]? = some item := by
        rw [hqueue, List.getElem?_append_right (le_refl _), Nat.sub_self]
        rfl
      rw [hget]
      cases item with
      | gone id =>
        have herase : s.cell.queue.eraseIdx before.length = before ++ after := by
          rw [hqueue, List.eraseIdx_append_of_length_le (le_refl _), Nat.sub_self]
          rfl
        refine Run.ends_bind (Run.ends_modify (Run.ends_pure ⟨?_, before, after, hqueue, hbefore, ?_⟩))
        · rw [herase]
          have hrecorded : recorded (before ++ after) = recorded s.cell.queue := by
            rw [hqueue]
            unfold recorded
            rw [List.filterMap_append, List.filterMap_append, List.filterMap_cons_none rfl]
          have hrefl : Quiet seed s (.ok () : Except Fault Unit) s := h.quiet_refl (by simp)
          exact (hrefl.trans_queue hrecorded (by simp)).moved
        · rw [herase]
      | posted id queued =>
        refine Run.ends_bind (Run.ends_attempt (ends_take h hqueue ?_ ?_))
        · exact Run.ends_pure ⟨(h.quiet_latched (by simp)).moved, trivial⟩
        · intro stretch rest given posts hsplit hlist hone hadv hsteady hleft
          have hfirst : ∀ first ∈ stretch.head?, s.admitted first = some true := by
            intro first hfirst
            have hhead : (stretch ++ rest).head? = some (.posted id queued) := by
              have := hqueue.symm.trans hsplit
              rw [List.append_assoc, List.append_cancel_left_eq] at this
              rw [← this]
              rfl
            rw [List.head?_append, Option.mem_def.mp hfirst] at hhead
            cases hhead
            exact hadmitted
          cases given with
          | command c =>
            refine Run.ends_pure ⟨takes_moved (by simp) hadv hsteady rfl, ?_⟩
            exact ⟨before, stretch, rest, posts, hsplit, hbefore, hfirst, hone, hlist, hadv, hleft⟩
          | input input =>
            refine Run.ends_bind (Run.ends_modify (Run.ends_pure ⟨takes_moved (by simp) hadv hsteady rfl, ?_⟩))
            exact ⟨before, stretch, rest, posts, hsplit, hbefore, hfirst, hone, hlist,
              { hadv with replays := { hadv.replays with } }, hleft⟩
  · split
    · next job hjob =>
        split
        · have hline := Folds.stepLine_one
            (Folds.step_jobSettled (f := s.cell.folds) hjob (s.journal.commits + 1) s.cell.stopped)
          refine Run.ends_bind (Run.ends_attempt (ends_commit (by simp [NonEmpty.toList, isPosted]) hline ?_ ?_))
          · exact Run.ends_pure ⟨(h.quiet_latched (by simp)).moved, trivial⟩
          · intro hfailed
            refine Run.ends_bind (Run.ends_get (Run.ends_pure
              ⟨⟨by simp, [.jobSettled job s.cell.stopped], ?_, ?_⟩, trivial⟩))
            · exact h.advances_written [] hfailed hline rfl (le_refl _) h.named_le_succ (.of_eq rfl rfl rfl rfl)
            · exact .settles rfl hjob rfl rfl rfl
        · exact Run.ends_pure ⟨hstay _ (by simp), trivial⟩
    · split
      · refine Run.ends_bind (Run.ends_modify (Run.ends_pure ⟨⟨by simp, [], ?_, .steady rfl ⟨rfl, rfl, by simp⟩⟩, trivial⟩))
        exact { h.advances_refl with replays := { h with }, live := fun hlive => by cases hlive }
      · exact Run.ends_pure ⟨hstay _ (by simp), trivial⟩
    · exact Run.ends_pure ⟨hstay _ (by simp), trivial⟩

end

/-! ## Reports

A status is committed and synced, and then sent if it was owed. Where that fails the
parent hears of the first failure, and of no other.
-/

section
variable [Wording] {seed : Folds} {s : Shared}

def Shared.tells (s : Shared) (notice : Notice) : List Notice := s.parent.toList.map fun _ => notice

/-- How a report ends. -/
inductive Outcome (s s' : Shared) (status : ChildStatus) : Prop
  /-- Nothing was owed: nothing is sent. -/
  | unowed : s.mail.owes = false → s'.notices = s.notices → s'.failureNoticed = s.failureNoticed → Outcome s s' status
  | sent : s.mail.owes = true → s.journal.failed = false → s'.mail.answering = false →
      s'.notices = s.notices ++ s.tells (.report status) → s'.failureNoticed = s.failureNoticed → Outcome s s' status
  /-- It is not: the failure is sent, unless one was. -/
  | failed : s.mail.owes = true → s'.journal.failed = true → s'.failureNoticed = true →
      s'.notices = s.notices ++ (if s.failureNoticed then [] else s.tells .failure) → Outcome s s' status

/-- What a report leaves of the cell and its log. -/
structure Filed (seed : Folds) (s s' : Shared) : Prop where
  replays : s'.Replays seed
  admission : s'.admission = s.admission
  parent : s'.parent = s.parent
  mail : s'.mail.parent = s.mail.parent ∧ s'.mail.returns = s.mail.returns
  records : ∃ line : List Control, s'.journal.records = s.journal.records ++ line.map (s'.journal.commits, ·) ∧
    ∀ control ∈ line, control.isJob = false
  commits : s.journal.commits ≤ s'.journal.commits
  answered : s'.mail.answering = true → s.mail.answering = true
  named : s.mail.named ≤ s'.mail.named
  job : s'.mail.job = s.mail.job
  stopped : s'.cell.stopped = s.cell.stopped
  latch : s.journal.failed = true → s'.journal.failed = true
  poisoned : s'.poisoned = s.poisoned
  owned : s'.owned = true → s.owned = true
  live : s'.live = true → s.live = true

structure Reports (seed : Folds) (s s' : Shared) (status : ChildStatus) : Prop where
  filed : Filed seed s s'
  outcome : Outcome s s' status

theorem Shared.Replays.withdrawn (h : s.Replays seed) :
    s.withdrawn.Nodup ∧ ∀ id ∈ s.withdrawn, (s.mail.post id).isSome := by
  unfold Shared.withdrawn
  split
  · exact ⟨h.nodup_postsWhere _, fun id hid => h.pending_postsWhere hid⟩
  · exact ⟨s.mail.pending.keys_nodup, fun id hid => SortedMap.get_isSome.mpr hid⟩

def Mail.answered (m : Mail) (status : ChildStatus) : Mail := { m with status := some status, answering := false }

def Shared.reported (s : Shared) (status : ChildStatus) : Folds :=
  ⟨(s.mail.answered status).removed s.withdrawn false, SortedMap.empty, s.cell.folds.model⟩

def Shared.reportLine (s : Shared) (status : ChildStatus) : NonEmpty Control :=
  ⟨.status status, s.retireSchedules ++ (collect s.withdrawn).toList.map .withdrawn⟩

theorem stepLine_report (h : s.Replays seed) (status : ChildStatus) :
    s.cell.folds.stepLine (s.journal.commits + 1) (s.reportLine status).toList = .ok (s.reported status) := by
  obtain ⟨hnodup, hpending⟩ := h.withdrawn
  have hstatus : s.cell.folds.step (s.journal.commits + 1) (.status status) =
      .ok { s.cell.folds with mail := s.mail.answered status } := rfl
  have hretired : Folds.stepLine { s.cell.folds with mail := s.mail.answered status } (s.journal.commits + 1)
      s.retireSchedules = .ok ⟨s.mail.answered status, SortedMap.empty, s.cell.folds.model⟩ :=
    Folds.stepLine_retired _ _
  show s.cell.folds.stepLine _ (.status status ::
    (s.retireSchedules ++ (collect s.withdrawn).toList.map .withdrawn)) = .ok ⟨_, _, _⟩
  rw [Folds.stepLine_cons hstatus, Folds.stepLine_append hretired]
  cases hposts : collect s.withdrawn with
  | none =>
    have hsame : (s.mail.answered status).removed [] false = s.mail.answered status := by
      simp [Mail.removed]
    rw [eq_nil_of_collect hposts, hsame]
    rfl
  | some posts =>
    have hlist := toList_of_collect hposts
    rw [← hlist] at hnodup hpending ⊢
    have hsame : ∀ id ∈ posts.toList, ((s.mail.answered status).post id).isSome := hpending
    exact Folds.stepLine_one (@Folds.step_withdrawn ⟨s.mail.answered status, _, _⟩ posts hnodup hsame _)

omit [Wording] in
theorem reportLine_kinds (s : Shared) (status : ChildStatus) : ∀ control ∈ (s.reportLine status).toList,
    isPosted control = false ∧ control.isJob = false := by
  intro control hcontrol
  rcases List.mem_cons.mp hcontrol with rfl | hcontrol
  · exact ⟨rfl, rfl⟩
  rcases List.mem_append.mp hcontrol with hcontrol | hcontrol
  · obtain ⟨_, _, rfl⟩ := List.mem_map.mp hcontrol
    exact ⟨rfl, rfl⟩
  · obtain ⟨_, _, rfl⟩ := List.mem_map.mp hcontrol
    exact ⟨rfl, rfl⟩

theorem filed_latched (h : s.Replays seed) : Filed seed s s.latched where
  replays := h.latched
  admission := rfl
  parent := rfl
  mail := ⟨rfl, rfl⟩
  records := ⟨[], (List.append_nil _).symm, by simp⟩
  commits := le_refl _
  answered h := h
  named := le_refl _
  job := rfl
  stopped := rfl
  latch _ := rfl
  poisoned := rfl
  owned h := h
  live h := nomatch h

omit [Wording] in
theorem answering_reported (s : Shared) (status : ChildStatus) : (s.reported status).mail.answering = false := by
  simp [Shared.reported, Mail.removed, Mail.answered]

theorem filed_written (h : s.Replays seed) (failed : s.journal.failed = false) (status : ChildStatus) :
    Filed seed s (s.written (s.reportLine status).toList (s.reported status)) where
  replays := h.written (stepLine_report h status) rfl (le_refl _) h.named_le_succ
  admission := rfl
  parent := rfl
  mail := ⟨rfl, rfl⟩
  records := ⟨(s.reportLine status).toList, rfl, fun control hcontrol => (reportLine_kinds s status control hcontrol).2⟩
  commits := Nat.le_succ _
  answered hanswering := absurd ((answering_reported s status).symm.trans hanswering) Bool.false_ne_true
  named := le_refl _
  job := rfl
  stopped := rfl
  latch hlatched := absurd (failed.symm.trans hlatched) Bool.false_ne_true
  poisoned := rfl
  owned h := h
  live h := h

namespace Filed
variable {s' : Shared}

theorem latched (h : Filed seed s s') : Filed seed s s'.latched :=
  { h with replays := h.replays.latched, latch := fun _ => rfl, live := fun h => nomatch h }

theorem told (h : Filed seed s s') (notices : List Notice) (failureNoticed : Bool) :
    Filed seed s { s' with notices, failureNoticed } :=
  { h with replays := { h.replays with } }

end Filed

theorem ends_reportFailure {status : ChildStatus} {s' : Shared} (hfiled : Filed seed s s')
    (hfailed : s'.journal.failed = true) (hnotices : s'.notices = s.notices)
    (hnoticed : s'.failureNoticed = s.failureNoticed) :
    Run.Ends (do
        if s.mail.owes then reportFailure
        Run.fail .unavailable : Txn Unit) s' fun r t => r ≠ .error .panicked ∧ Reports seed s t status := by
  cases howes : s.mail.owes with
  | false => exact ⟨.error .unavailable, s', rfl, by simp, hfiled, .unowed howes hnotices hnoticed⟩
  | true =>
    have hparent : s'.parent = s.parent := hfiled.parent
    cases hold : s'.failureNoticed with
    | true =>
      refine ⟨.error .unavailable, s', ?_, by simp, hfiled, .failed howes hfailed hold ?_⟩
      · simp [reportFailure, Run.modify, bind, Run.bind, Run.fail, hold]
      · rw [hnotices, ← hnoticed, hold]
        simp
    | false =>
      refine ⟨.error .unavailable, { s' with failureNoticed := true, notices := s'.notices ++ s'.tells .failure },
        ?_, by simp, hfiled.told _ _, .failed howes hfailed rfl ?_⟩
      · simp [reportFailure, Run.modify, bind, Run.bind, Run.fail, hold, Shared.tells]
      · show s'.notices ++ s'.tells .failure = _
        rw [hnotices, ← hnoticed, hold]
        simp [Shared.tells, hparent]

theorem report_reports (h : s.Replays seed) (status : ChildStatus) (ok synced : Bool) :
    Run.Ends (report status ok synced) s fun r s' => r ≠ .error .panicked ∧ Reports seed s s' status := by
  refine Run.ends_bind (Run.ends_get ?_)
  rw [Run.after_ok]
  have hposts : (s.reportLine status).toList.any isPosted = false := by
    rw [List.any_eq_false]
    intro control hcontrol
    simp [(reportLine_kinds s status control hcontrol).1]
  refine Run.ends_bind (Run.ends_attempt (Run.ends_bind (ends_commit hposts (stepLine_report h status) ?_ ?_)))
  · exact ends_reportFailure (filed_latched h) rfl rfl rfl
  · intro hfailed
    have hfiled := filed_written h hfailed status
    refine ends_sync ?_ ?_
    · exact ends_reportFailure hfiled.latched rfl rfl rfl
    · intro _
      rw [Run.after_ok]
      cases howes : s.mail.owes with
      | false => exact Run.ends_pure ⟨by simp, hfiled, .unowed howes rfl rfl⟩
      | true =>
        refine Run.ends_modify ⟨by simp, hfiled.told _ _, ?_⟩
        exact .sent howes hfailed (answering_reported s status) rfl rfl

end

end Ral.Mailbox
