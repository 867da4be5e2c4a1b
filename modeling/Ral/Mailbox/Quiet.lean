import Ral.Mailbox.Replay

/-! # Transactions that report nothing

What any transaction but a report leaves: the cell still replays its log, debts to the
parent are kept, and nothing was sent to it. Steady ones leave the job alone, too.
-/

namespace Ral.Mailbox
open Ral.Data Ral.Session Ral.Record

/-! ## Debts -/

/-- A change of the mail that pays no debt to the parent, and makes none of its own. -/
structure Mail.Moves (m m' : Mail) : Prop where
  parent : m'.parent = m.parent
  returns : m'.returns = m.returns
  peers : ∀ id post, m.post id = some post → post.voice = some .peer →
    m'.post id = some post ∨ (m.returns = true → m.byParent post = true → m'.answering = true)
  answering : m.answering = true → m'.answering = true
  answered : m'.answering = true → m.answering = true ∨ ∃ id post, m.post id = some post ∧ m.byParent post = true

namespace Mail.Moves
variable {m : Mail}

theorem refl (m : Mail) : m.Moves m where
  parent := rfl
  returns := rfl
  peers _ _ hpost _ := Or.inl hpost
  answering h := h
  answered h := Or.inl h

theorem of_eq {m' : Mail} (parent : m'.parent = m.parent) (returns : m'.returns = m.returns)
    (pending : m'.pending = m.pending) (answering : m'.answering = m.answering) : m.Moves m' where
  parent := parent
  returns := returns
  peers id post hpost _ := by
    left
    show m'.pending.get id = some post
    rw [pending]
    exact hpost
  answering h := answering.trans h
  answered h := Or.inl (answering.symm.trans h)

theorem taken (m : Mail) (posts : List PostId) : m.Moves (m.removed posts true) where
  parent := rfl
  returns := rfl
  peers id post hpost _ := by
    by_cases hid : id ∈ posts
    · right
      intro hreturns hby
      have hanswers : m.answers posts = true := Mail.answers_eq_true.mpr ⟨id, hid, post, hpost, hby⟩
      simp [Mail.removed, hreturns, hanswers]
    · left
      exact get_foldl_erase.mpr ⟨hid, hpost⟩
  answering h := by simp [Mail.removed, h]
  answered h := by
    simp only [Mail.removed, Bool.true_and, Bool.or_eq_true, Bool.and_eq_true] at h
    rcases h with h | ⟨_, h⟩
    · exact Or.inl h
    · obtain ⟨id, _, post, hpost, hby⟩ := Mail.answers_eq_true.mp h
      exact Or.inr ⟨id, post, hpost, hby⟩

theorem withdrawn {posts : List PostId}
    (spared : ∀ id ∈ posts, ∀ post, m.post id = some post → post.voice ≠ some .peer) :
    m.Moves (m.removed posts false) where
  parent := rfl
  returns := rfl
  peers id post hpost hvoice := by
    left
    apply get_foldl_erase.mpr
    refine ⟨fun hid => ?_, hpost⟩
    exact spared id hid post hpost hvoice
  answering h := by simp [Mail.removed, h]
  answered h := by
    left
    simpa [Mail.removed] using h

theorem posted {m' : Mail} {id : PostId} {post : Post} (parent : m'.parent = m.parent)
    (returns : m'.returns = m.returns) (last : ∀ e ∈ m.pending.entries, e.1 < id)
    (pending : m'.pending = m.pending.insert id post) (answering : m'.answering = m.answering) :
    m.Moves m' where
  parent := parent
  returns := returns
  peers other old hold _ := by
    left
    have hmem := SortedMap.get_eq_some.mp hold
    apply SortedMap.get_eq_some.mpr
    rw [pending, SortedMap.entries_insert_last last]
    exact List.mem_append_left _ hmem
  answering h := answering.trans h
  answered h := Or.inl (answering.symm.trans h)

end Mail.Moves

/-! ## Advances -/

def Control.isJob : Control → Bool
  | .jobOpened | .jobSettled _ _ => true
  | _ => false

section
variable [Wording]

/-- What a transaction that appended `line` leaves, unless it reports. -/
structure Advances (seed : Folds) (s s' : Shared) (line : List Control) : Prop where
  replays : s'.Replays seed
  admission : s'.admission = s.admission
  parent : s'.parent = s.parent
  records : s'.journal.records = s.journal.records ++ line.map (s'.journal.commits, ·)
  commits : s.journal.commits ≤ s'.journal.commits
  moves : s.mail.Moves s'.mail
  named : s.mail.named ≤ s'.mail.named
  notices : s'.notices = s.notices
  noticed : s'.failureNoticed = s.failureNoticed
  latch : s.journal.failed = true → s'.journal.failed = true ∧ line = []
  poisoned : s'.poisoned = s.poisoned
  owned : s'.owned = true → s.owned = true
  live : s'.live = true → s.live = true

/-- The job is where it was. -/
structure Steady (s s' : Shared) (line : List Control) : Prop where
  job : s'.mail.job = s.mail.job
  stopped : s'.cell.stopped = s.cell.stopped
  records : ∀ control ∈ line, control.isJob = false

def Quiet {α : Type} (seed : Folds) (s : Shared) (r : Except Fault α) (s' : Shared) : Prop :=
  r ≠ .error .panicked ∧ ∃ line, Advances seed s s' line ∧ Steady s s' line

namespace Shared.Replays
variable {seed : Folds} {s : Shared}

theorem advances_refl (h : s.Replays seed) : Advances seed s s [] where
  replays := h
  admission := rfl
  parent := rfl
  records := by simp
  commits := le_refl _
  moves := .refl _
  named := le_refl _
  notices := rfl
  noticed := rfl
  latch h := ⟨h, rfl⟩
  poisoned := rfl
  owned h := h
  live h := h

theorem advances_latched (h : s.Replays seed) : Advances seed s s.latched [] where
  replays := h.latched
  admission := rfl
  parent := rfl
  records := (List.append_nil _).symm
  commits := le_refl _
  moves := .refl _
  named := le_refl _
  notices := rfl
  noticed := rfl
  latch _ := ⟨rfl, rfl⟩
  poisoned := rfl
  owned h := h
  live h := nomatch h

variable {α : Type} {r : Except Fault α}

theorem quiet_refl (h : s.Replays seed) (hr : r ≠ .error .panicked) : Quiet seed s r s :=
  ⟨hr, [], h.advances_refl, rfl, rfl, by simp⟩

theorem quiet_latched (h : s.Replays seed) (hr : r ≠ .error .panicked) : Quiet seed s r s.latched :=
  ⟨hr, [], h.advances_latched, rfl, rfl, by simp⟩

theorem advances_written (h : s.Replays seed) (posts : List PostId) (failed : s.journal.failed = false)
    {line : List Control} {folds : Folds}
    (hline : s.cell.folds.stepLine (s.journal.commits + 1) line = .ok folds)
    (hpending : folds.mail.pending = posts.foldl SortedMap.erase s.mail.pending)
    (hnamed : s.mail.named ≤ folds.mail.named) (hbound : folds.mail.named ≤ s.journal.commits + 1)
    (hmoves : s.mail.Moves folds.mail) : Advances seed s (s.written line folds) line where
  replays := h.written hline hpending hnamed hbound
  admission := rfl
  parent := rfl
  records := rfl
  commits := Nat.le_succ _
  moves := hmoves
  named := hnamed
  notices := rfl
  noticed := rfl
  latch h := absurd (failed.symm.trans h) Bool.false_ne_true
  poisoned := rfl
  owned h := h
  live h := h

theorem named_le_succ (h : s.Replays seed) : s.mail.named ≤ s.journal.commits + 1 :=
  h.named.trans (Nat.le_succ _)

theorem quiet_aside (h : s.Replays seed) (failed : s.journal.failed = false) {line : List Control}
    {folds : Folds} (hline : s.cell.folds.stepLine (s.journal.commits + 1) line = .ok folds)
    (hmail : folds.mail = s.mail) (hjobs : ∀ control ∈ line, control.isJob = false)
    (hr : r ≠ .error .panicked) : Quiet seed s r (s.written line folds) := by
  refine ⟨hr, line, h.advances_written [] failed hline ?_ ?_ ?_ ?_, ?_, rfl, hjobs⟩
  · rw [hmail]
    rfl
  · rw [hmail]
  · rw [hmail]
    exact h.named_le_succ
  · rw [hmail]
    exact .refl _
  · show folds.mail.job = s.mail.job
    rw [hmail]

theorem quiet_withdrawn (h : s.Replays seed) (failed : s.journal.failed = false) {line : List Control}
    {folds : Folds} {posts : List PostId}
    (hline : s.cell.folds.stepLine (s.journal.commits + 1) line = .ok folds)
    (hmail : folds.mail = s.mail.removed posts false)
    (spared : ∀ id ∈ posts, ∀ post, s.mail.post id = some post → post.voice ≠ some .peer)
    (hjobs : ∀ control ∈ line, control.isJob = false) (hr : r ≠ .error .panicked) :
    Quiet seed s r (s.written line folds) := by
  refine ⟨hr, line, h.advances_written posts failed hline ?_ ?_ ?_ ?_, ?_, rfl, hjobs⟩
  · rw [hmail]
    rfl
  · rw [hmail]
    exact le_refl _
  · rw [hmail]
    exact h.named_le_succ
  · rw [hmail]
    exact .withdrawn spared
  · show folds.mail.job = s.mail.job
    rw [hmail]
    rfl

end Shared.Replays

theorem Shared.Replays.setQueue {seed : Folds} {s : Shared} (h : s.Replays seed) {queue : List Item}
    (hqueue : recorded queue = recorded s.cell.queue) : (s.setQueue queue).Replays seed where
  replay := h.replay
  named := h.named
  ids := h.ids
  kept := by
    show (recorded queue).Sublist _
    rw [hqueue]
    exact h.kept
  owned := by
    show _ → recorded queue = _
    rw [hqueue]
    exact h.owned

theorem Quiet.trans_queue {α β : Type} {seed : Folds} {s s' : Shared} {r : Except Fault α} {r' : Except Fault β}
    (h : Quiet seed s r s') {queue : List Item} (hqueue : recorded queue = recorded s'.cell.queue)
    (hr : r' ≠ .error .panicked) : Quiet seed s r' (s'.setQueue queue) := by
  obtain ⟨_, line, adv, steady⟩ := h
  exact ⟨hr, line, { adv with replays := adv.replays.setQueue hqueue }, { steady with }⟩

/-! ## Posts named in a line -/

omit [Wording] in
theorem toList_of_collect {α : Type} {l : List α} {posts : NonEmpty α} (h : collect l = some posts) :
    posts.toList = l := by
  cases l with
  | nil => cases h
  | cons a l =>
    cases h
    rfl

omit [Wording] in
theorem eq_nil_of_collect {α : Type} {l : List α} (h : collect l = none) : l = [] := by
  cases l with
  | nil => rfl
  | cons a l => cases h

omit [Wording] in
theorem mem_postsWhere {p : Queued → Bool} {queue : List Item} {id : PostId} :
    id ∈ postsWhere p queue ↔ ∃ queued, .posted id queued ∈ queue ∧ p queued = true := by
  unfold postsWhere
  rw [List.mem_filterMap]
  constructor
  · intro ⟨item, hitem, hid⟩
    cases item with
    | gone other => cases hid
    | posted other queued =>
      simp only [Option.ite_none_right_eq_some, Option.some.injEq] at hid
      exact ⟨queued, hid.2 ▸ hitem, hid.1⟩
  · intro ⟨queued, hitem, hp⟩
    exact ⟨_, hitem, by simp [hp]⟩

theorem postsWhere_sublist (p : Queued → Bool) (queue : List Item) :
    (postsWhere p queue).Sublist ((recorded queue).map Prod.fst) := by
  induction queue with
  | nil => exact .slnil
  | cons item queue ih =>
    unfold postsWhere recorded at ih ⊢
    cases item with
    | gone id =>
      rw [List.filterMap_cons_none rfl, List.filterMap_cons_none rfl]
      exact ih
    | posted id queued =>
      have hrecorded : (Item.posted id queued).recorded = some (id, queued.posted) := rfl
      rw [List.filterMap_cons_some hrecorded, List.map_cons, List.filterMap_cons]
      cases hp : p queued with
      | false => simpa [hp] using ih.cons id
      | true => simpa [hp] using ih.cons_cons id

namespace Shared.Replays
variable {seed : Folds} {s : Shared}

theorem nodup_recorded (h : s.Replays seed) : ((recorded s.cell.queue).map Prod.fst).Nodup :=
  s.mail.pending.keys_nodup.sublist (h.kept.map Prod.fst)

theorem nodup_postsWhere (h : s.Replays seed) (p : Queued → Bool) : (postsWhere p s.cell.queue).Nodup :=
  h.nodup_recorded.sublist (postsWhere_sublist p s.cell.queue)

theorem pending_postsWhere (h : s.Replays seed) {p : Queued → Bool} {id : PostId}
    (hid : id ∈ postsWhere p s.cell.queue) : (s.mail.post id).isSome := by
  obtain ⟨queued, hitem, _⟩ := mem_postsWhere.mp hid
  rw [h.pending_of_mem hitem]
  rfl

theorem spared_postsWhere (h : s.Replays seed) {p : Queued → Bool}
    (hp : ∀ queued : Queued, p queued = true → queued.posted.voice ≠ some .peer) :
    ∀ id ∈ postsWhere p s.cell.queue, ∀ post, s.mail.post id = some post → post.voice ≠ some .peer := by
  intro id hid post hpost
  obtain ⟨queued, hitem, hq⟩ := mem_postsWhere.mp hid
  rw [h.pending_of_mem hitem] at hpost
  cases hpost
  exact hp queued hq

end Shared.Replays

theorem voice_of_clears {queued : Queued} (h : queued.clears = true) : queued.posted.voice ≠ some .peer := by
  cases queued with
  | command c => cases h
  | input input => cases input <;> first | (exact absurd h Bool.false_ne_true) | simp [Queued.posted]

/-! ## The transactions -/

section Transactions
variable {seed : Folds} {s : Shared} {ok : Bool}

theorem commit_quiet {α : Type} (h : s.Replays seed) {control : Control} {folds : Folds} (give : Except Fault α)
    (hstep : s.cell.folds.step (s.journal.commits + 1) control = .ok folds) (hmail : folds.mail = s.mail)
    (hkind : isPosted control = false ∧ control.isJob = false) (hgive : give ≠ .error .panicked)
    {f : List Queued → Txn α} (hf : ∀ taken s', f taken s' = some (give, s')) :
    Run.Ends (commit ⟨control, []⟩ ok >>= f) s (Quiet seed s) := by
  have hline := Folds.stepLine_one hstep
  have hjobs : ∀ c ∈ [control], c.isJob = false := by
    simp [hkind.2]
  refine Run.ends_bind (ends_commit ?_ hline ?_ ?_)
  · simp [NonEmpty.toList, hkind.1]
  · exact h.quiet_latched (by simp)
  · intro hfailed
    exact ⟨_, _, hf _ _, h.quiet_aside hfailed hline hmail hjobs hgive⟩

theorem schedule_quiet (h : s.Replays seed) (label : String) (booking : Schedule) :
    Run.Ends (schedule label booking ok) s (Quiet seed s) := by
  refine Run.ends_bind (Run.ends_get ?_)
  rw [Run.after_ok]
  split
  · exact Run.ends_pure (h.quiet_refl (by simp))
  · exact commit_quiet h _ (Folds.step_scheduled _ _ label booking) rfl ⟨rfl, rfl⟩ (by simp) fun _ _ => rfl

theorem unschedule_quiet (h : s.Replays seed) (label : String) :
    Run.Ends (unschedule label ok) s (Quiet seed s) := by
  refine Run.ends_bind (Run.ends_get ?_)
  rw [Run.after_ok]
  split
  · exact Run.ends_pure (h.quiet_refl (by simp))
  · next hbooked =>
      have hsome : (s.cell.folds.schedules.get label).isSome := by
        cases hget : s.cell.folds.schedules.get label with
        | none => exact absurd (by simpa [Shared.schedules] using hget) hbooked
        | some _ => rfl
      exact commit_quiet h _ (Folds.step_unscheduled hsome _) rfl ⟨rfl, rfl⟩ (by simp) fun _ _ => rfl

theorem changeModel_quiet (h : s.Replays seed) (selected : Selected) :
    Run.Ends (changeModel selected ok) s (Quiet seed s) :=
  commit_quiet h _ (Folds.step_modelChanged _ _ selected) rfl ⟨rfl, rfl⟩ (by simp) fun _ _ => rfl

theorem narrow_quiet (h : s.Replays seed) (model : String) (limit : ℕ) :
    Run.Ends (narrow model limit ok) s (Quiet seed s) := by
  refine Run.ends_bind (Run.ends_get ?_)
  rw [Run.after_ok]
  split
  · exact Run.ends_pure (h.quiet_refl (by simp))
  · next hnarrows =>
      have hyes : s.cell.folds.model.narrows model limit = true := by simpa using hnarrows
      exact commit_quiet h _ (Folds.step_windowNarrowed hyes _) rfl ⟨rfl, rfl⟩ (by simp) fun _ _ => rfl

omit [Wording] in
theorem stepLine_cleared {posts : List PostId} (nodup : posts.Nodup)
    (pending : ∀ id ∈ posts, (s.mail.post id).isSome) :
    s.cell.folds.stepLine (s.journal.commits + 1)
        ((collect posts).toList.map .withdrawn ++ s.retireSchedules) =
      .ok ⟨s.mail.removed posts false, SortedMap.empty, s.cell.folds.model⟩ := by
  cases hposts : collect posts with
  | none =>
    rw [eq_nil_of_collect hposts]
    have hsame : s.mail.removed [] false = s.mail := by
      simp [Mail.removed]
    rw [hsame]
    exact Folds.stepLine_retired _ _
  | some some_posts =>
    have hlist := toList_of_collect hposts
    rw [← hlist] at nodup pending ⊢
    have hstep := Folds.step_withdrawn (f := s.cell.folds) nodup pending (s.journal.commits + 1)
    show s.cell.folds.stepLine _ (.withdrawn some_posts :: s.retireSchedules) = _
    rw [Folds.stepLine_cons hstep]
    exact Folds.stepLine_retired { s.cell.folds with mail := s.mail.removed some_posts.toList false } _

theorem recorded_departed (queue : List Item) :
    recorded (queue.filter fun item => !isGone item) = recorded queue := by
  induction queue with
  | nil => rfl
  | cons item queue ih =>
    unfold recorded at ih ⊢
    cases item with
    | gone id =>
      rw [List.filter_cons_of_neg (by simp [isGone]), List.filterMap_cons_none rfl, ih]
    | posted id queued =>
      have hrecorded : (Item.posted id queued).recorded = some (id, queued.posted) := rfl
      rw [List.filter_cons_of_pos rfl, List.filterMap_cons_some hrecorded, List.filterMap_cons_some hrecorded, ih]

omit [Wording] in
theorem cleared_kinds (s : Shared) : ∀ control ∈ (collect (postsWhere Queued.clears s.cell.queue)).toList.map
    Control.withdrawn ++ s.retireSchedules, isPosted control = false ∧ control.isJob = false := by
  intro control hcontrol
  rcases List.mem_append.mp hcontrol with hcontrol | hcontrol
  · obtain ⟨_, _, rfl⟩ := List.mem_map.mp hcontrol
    exact ⟨rfl, rfl⟩
  · obtain ⟨_, _, rfl⟩ := List.mem_map.mp hcontrol
    exact ⟨rfl, rfl⟩

theorem clear_quiet (h : s.Replays seed) : Run.Ends (clear ok) s (Quiet seed s) := by
  have hnodup := h.nodup_postsWhere Queued.clears
  have hpending : ∀ id ∈ postsWhere Queued.clears s.cell.queue, (s.mail.post id).isSome :=
    fun id hid => h.pending_postsWhere hid
  have hline := stepLine_cleared hnodup hpending
  have hspared := h.spared_postsWhere fun _ => voice_of_clears
  have hkinds := cleared_kinds s
  refine Run.ends_bind (Run.ends_get ?_)
  rw [Run.after_ok]
  cases hcollect : collect ((collect (postsWhere Queued.clears s.cell.queue)).toList.map Control.withdrawn ++
      s.retireSchedules) with
  | none =>
    simp only [hcollect]
    apply Run.ends_modify
    exact (h.quiet_refl (r := (.ok () : Except Fault Unit)) (by simp)).trans_queue (recorded_departed _) (by simp)
  | some line =>
    simp only [hcollect]
    rw [← toList_of_collect hcollect] at hline hkinds
    refine Run.ends_bind (ends_commit ?_ hline ?_ ?_)
    · rw [List.any_eq_false]
      intro control hcontrol
      simp [(hkinds control hcontrol).1]
    · exact h.quiet_latched (by simp)
    · intro hfailed
      apply Run.ends_modify
      have hquiet := h.quiet_withdrawn (r := (.ok () : Except Fault Unit)) hfailed hline rfl hspared
        (fun control hcontrol => (hkinds control hcontrol).2) (by simp)
      exact hquiet.trans_queue (recorded_departed _) (by simp)

omit [Wording] in
theorem recalled (m : Mail) : ((m.runs.filterMap Group.run?).flatMap fun run => run.toList.map Prod.fst) =
    (m.pending.entries.filter fun e => e.2.voice = some .human).map Prod.fst := by
  have hhumans := (grouped_runs (m.pending.entries.map fun e =>
    if e.2.voice = some .human then Part.human e else .post e.2)).humans
  have hparts : (m.pending.entries.map fun e =>
      if e.2.voice = some .human then Part.human e else .post e.2).filterMap Part.human? =
      m.pending.entries.filter fun e => e.2.voice = some .human := by
    rw [List.filterMap_map, ← List.filterMap_eq_filter]
    apply List.filterMap_congr
    intro e _
    by_cases he : e.2.voice = some .human <;> simp [he, Part.human?, Option.guard]
  rw [← hparts, ← hhumans, List.map_flatMap]
  rfl

theorem recall_quiet (h : s.Replays seed) : Run.Ends (recallTexts ok) s (Quiet seed s) := by
  refine Run.ends_bind (Run.ends_get ?_)
  rw [Run.after_ok]
  simp only [recalled]
  have hsub : ((s.mail.pending.entries.filter fun e => e.2.voice = some .human).map Prod.fst).Sublist
      (s.mail.pending.entries.map Prod.fst) := List.filter_sublist.map _
  split
  · next posts hcollect =>
      have hlist := toList_of_collect hcollect
      have hnodup : posts.toList.Nodup := by
        rw [hlist]
        exact s.mail.pending.keys_nodup.sublist hsub
      have hpending : ∀ id ∈ posts.toList, (s.mail.post id).isSome := by
        intro id hid
        rw [hlist] at hid
        exact SortedMap.get_isSome.mpr (hsub.subset hid)
      have hspared : ∀ id ∈ posts.toList, ∀ post, s.mail.post id = some post → post.voice ≠ some .peer := by
        intro id hid post hpost
        rw [hlist] at hid
        obtain ⟨e, he, rfl⟩ := List.mem_map.mp hid
        obtain ⟨hmem, hvoice⟩ := List.mem_filter.mp he
        have hget : s.mail.post e.1 = some e.2 := SortedMap.get_eq_some.mpr hmem
        rw [hget] at hpost
        cases hpost
        simp [of_decide_eq_true hvoice]
      have hline := Folds.stepLine_one
        (Folds.step_withdrawn (f := s.cell.folds) hnodup hpending (s.journal.commits + 1))
      refine Run.ends_bind (ends_commit (by simp [NonEmpty.toList, isPosted]) hline ?_ ?_)
      · exact h.quiet_latched (by simp)
      · intro hfailed
        have hjobs : ∀ control ∈ [Control.withdrawn posts], control.isJob = false := by
          simp [Control.isJob]
        exact Run.ends_pure (h.quiet_withdrawn hfailed hline rfl hspared hjobs (by simp))
  · exact Run.ends_pure (h.quiet_refl (by simp))

omit [Wording] in
theorem ends_checkAvailable {Q : Except Fault Unit → Shared → Prop} (fails : Q (.error .unavailable) s)
    (available : Q (.ok ()) s) : Run.Ends checkAvailable s Q := by
  cases hfailed : s.journal.failed with
  | true => exact ⟨_, s, by simp [checkAvailable, hfailed], fails⟩
  | false => exact ⟨_, s, by simp [checkAvailable, hfailed], available⟩

theorem recallLive_quiet (h : s.Replays seed) : Run.Ends (recallLive ok) s (Quiet seed s) := by
  refine Run.ends_bind (ends_checkAvailable ?_ ?_)
  · exact h.quiet_refl (by simp)
  · refine Run.ends_bind (Run.ends_get ?_)
    rw [Run.after_ok]
    split
    · exact recall_quiet h
    · exact Run.ends_pure (h.quiet_refl (by simp))

theorem takeRung_quiet (h : s.Replays seed) : Run.Ends takeRung s (Quiet seed s) := by
  refine Run.ends_act ⟨by simp, [], { h.advances_refl with replays := ?_ }, rfl, rfl, by simp⟩
  exact { h with }

theorem ring_quiet (h : s.Replays seed) (label : String) (id : ScheduleId) :
    Run.Ends (ring label id) s (Quiet seed s) := by
  apply Run.ends_modify
  split
  · exact ⟨by simp, [], { h.advances_refl with replays := { h with } }, rfl, rfl, by simp⟩
  · exact h.quiet_refl (by simp)

theorem release_quiet (h : s.Replays seed) : Run.Ends release s (Quiet seed s) := by
  apply Run.ends_act
  refine ⟨by simp, [], ?_⟩
  split
  · exact ⟨h.advances_refl, rfl, rfl, by simp⟩
  · split
    · exact ⟨{ h.advances_refl with replays := { h with } }, rfl, rfl, by simp⟩
    · exact ⟨h.advances_refl, rfl, rfl, by simp⟩

theorem gone_quiet (h : s.Replays seed) (id : AgentId) : Run.Ends (gone id) s (Quiet seed s) := by
  have hqueue : recorded (s.cell.queue ++ [.gone id]) = recorded s.cell.queue := by
    unfold recorded
    rw [List.filterMap_append]
    simp [Item.recorded]
  apply Run.ends_modify
  split
  · exact (h.quiet_refl (r := (.ok () : Except Fault Unit)) (by simp)).trans_queue hqueue (by simp)
  · exact h.quiet_refl (by simp)

theorem endLife_quiet (h : s.Replays seed) : Run.Ends endLife s (Quiet seed s) := by
  apply Run.ends_modify
  exact ⟨by simp, [], { h.advances_refl with replays := { h with }, live := fun h => nomatch h }, rfl, rfl, by simp⟩

theorem ends_postWith {Q : Except Fault PostId → Shared → Prop} {item : Queued} (change : Option Control)
    {folds : Folds}
    (hline : s.cell.folds.stepLine (s.journal.commits + 1) (.posted item.posted :: change.toList) = .ok folds)
    (fails : Q (.error .unavailable) s.latched)
    (writes : s.journal.failed = false → Q (.ok (s.journal.commits + 1))
      ((s.appended (.posted item.posted :: change.toList) folds).setQueue
        (s.cell.queue ++ [.posted (s.journal.commits + 1) item]))) :
    Run.Ends (postWith item change ok) s Q := by
  refine Run.ends_bind (ends_commitTo hline fails ?_)
  intro hfailed
  refine Run.ends_bind (Run.ends_modify ?_)
  exact Run.ends_pure (writes hfailed)

/-- A post, and perhaps a change of the schedules. -/
theorem quiet_posted {α : Type} {r : Except Fault α} (h : s.Replays seed) (failed : s.journal.failed = false)
    {item : Queued} {change : Option Control} {schedules : Schedules}
    (hline : s.cell.folds.stepLine (s.journal.commits + 1) (.posted item.posted :: change.toList) =
      .ok ⟨s.mail.pend (s.journal.commits + 1) item.posted, schedules, s.cell.folds.model⟩)
    (hjobs : ∀ control ∈ change.toList, control.isJob = false) (hr : r ≠ .error .panicked) :
    Quiet seed s r ((s.appended (.posted item.posted :: change.toList)
        ⟨s.mail.pend (s.journal.commits + 1) item.posted, schedules, s.cell.folds.model⟩).setQueue
        (s.cell.queue ++ [.posted (s.journal.commits + 1) item])) := by
  have hlast : ∀ e ∈ s.mail.pending.entries, e.1 < s.journal.commits + 1 :=
    fun e he => Nat.lt_succ_of_le ((h.ids e he).trans h.named)
  refine ⟨hr, .posted item.posted :: change.toList, ?_, rfl, rfl, ?_⟩
  · exact {
      replays := h.posted hline rfl rfl
      admission := rfl
      parent := rfl
      records := rfl
      commits := Nat.le_succ _
      moves := .posted rfl rfl hlast rfl rfl
      named := h.named_le_succ
      notices := rfl
      noticed := rfl
      latch := fun hlatched => absurd (failed.symm.trans hlatched) Bool.false_ne_true
      poisoned := rfl
      owned h := h
      live := fun hlive => hlive }
  · intro control hcontrol
    rcases List.mem_cons.mp hcontrol with rfl | hcontrol
    · rfl
    · exact hjobs control hcontrol

theorem named_lt_succ (h : s.Replays seed) : s.cell.folds.mail.named < s.journal.commits + 1 :=
  Nat.lt_succ_of_le h.named

/-- What an accepted post found, and left on the log under its id. -/
structure Accepted (s : Shared) (item : Queued) (id : PostId) (s' : Shared) : Prop where
  live : s.live = true
  failed : s.journal.failed = false
  records : s'.journal.records = s.journal.records ++ [(id, .posted item.posted)]
  pending : s'.mail.post id = some item.posted

theorem post_accepts (h : s.Replays seed) (item : Queued) : Run.Ends (post item ok) s fun r s' =>
    Quiet seed s r s' ∧ ∀ id, r = .ok id → Accepted s item id s' := by
  refine Run.ends_bind (Run.ends_get ?_)
  rw [Run.after_ok]
  split
  · exact Run.ends_fail ⟨h.quiet_refl (by simp), by simp⟩
  · next hlive =>
    split
    · exact Run.ends_fail ⟨h.quiet_refl (by simp), by simp⟩
    · have hline := Folds.stepLine_one (Folds.step_posted (named_lt_succ h) item.posted)
      apply Run.ends_mapError
      refine ends_postWith none hline ?_ ?_
      · exact ⟨h.quiet_latched (by simp [Except.mapError]), by simp [Except.mapError]⟩
      · intro hfailed
        refine ⟨quiet_posted h hfailed hline (by simp) (by simp [Except.mapError]), ?_⟩
        intro id hid
        cases hid
        exact ⟨by simpa using hlive, hfailed, rfl, SortedMap.get_insert_self _ _ _⟩

theorem post_quiet (h : s.Replays seed) (item : Queued) : Run.Ends (post item ok) s (Quiet seed s) :=
  (post_accepts h item).mono fun _ _ haccepts => haccepts.1

omit [Wording] in
theorem step_rebooked {f : Folds} {label : String} (h : (f.schedules.get label).isSome) (commit : ℕ)
    (booking : Schedule) (nextUnixMs : Option ℕ) (posted : Bool) : ∃ schedules : Schedules,
      f.step commit (rebooked label booking nextUnixMs posted) = .ok { f with schedules } := by
  cases nextUnixMs with
  | some next => exact ⟨_, Folds.step_scheduled f _ _ _⟩
  | none => exact ⟨_, Folds.step_unscheduled h _⟩

omit [Wording] in
theorem rebooked_kind (label : String) (booking : Schedule) (nextUnixMs : Option ℕ) (posted : Bool) :
    isPosted (rebooked label booking nextUnixMs posted) = false ∧
      (rebooked label booking nextUnixMs posted).isJob = false := by
  cases nextUnixMs <;> exact ⟨rfl, rfl⟩

theorem fire_quiet (h : s.Replays seed) (label : String) (id : ScheduleId) (nextUnixMs : Option ℕ)
    (text : String) : Run.Ends (fire label id nextUnixMs text ok) s (Quiet seed s) := by
  refine Run.ends_bind (Run.ends_get ?_)
  rw [Run.after_ok]
  split
  · exact Run.ends_pure (h.quiet_refl (by simp))
  · next booking hbooked =>
      have hsome : (s.cell.folds.schedules.get label).isSome := by
        have hget : s.cell.folds.schedules.get label = some booking := hbooked
        rw [hget]
        rfl
      dsimp only
      split
      · have hstep := Folds.step_posted (named_lt_succ h) (Queued.input (.wakeup id text)).posted
        have hbooking : ∀ mail : Mail, (({ s.cell.folds with mail } : Folds).schedules.get label).isSome :=
          fun _ => hsome
        obtain ⟨schedules, hlast⟩ := step_rebooked (hbooking _) (s.journal.commits + 1) booking nextUnixMs
          (!(s.cell.queue.any (isQueuedWakeup id)))
        have hline := (Folds.stepLine_cons hstep _).trans (Folds.stepLine_one hlast)
        refine Run.ends_bind (ends_postWith (some _) hline ?_ ?_)
        · exact h.quiet_latched (by simp)
        · intro hfailed
          refine Run.ends_pure (quiet_posted h hfailed hline ?_ (by simp))
          intro control hcontrol
          rw [Option.toList_some, List.mem_singleton] at hcontrol
          rw [hcontrol]
          exact (rebooked_kind _ _ _ _).2
      · obtain ⟨schedules, hlast⟩ := step_rebooked hsome (s.journal.commits + 1) booking nextUnixMs
          (!(s.cell.queue.any (isQueuedWakeup id)))
        exact commit_quiet h _ hlast rfl (rebooked_kind _ _ _ _) (by simp) fun _ _ => rfl

end Transactions

end

end Ral.Mailbox
