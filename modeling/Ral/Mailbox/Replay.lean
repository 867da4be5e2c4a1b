import Mathlib.Tactic.Common
import Ral.Mailbox.Cell

/-! # The cell replays its log

What a line does to the folds, and what the append of one leaves of the cell: the folds
stay the replay of the records, and the queue keeps exactly the payloads that are pending.
-/

namespace Ral.Mailbox
open Ral.Data Ral.Session Ral.Record

/-! ## Removing posts -/

namespace Mail

def answers (m : Mail) (posts : List PostId) : Bool := posts.any fun id => (m.post id).any m.byParent

/-- The mail without `posts`, all of them pending. -/
def removed (m : Mail) (posts : List PostId) (taken : Bool) : Mail :=
  { m with
    pending := posts.foldl SortedMap.erase m.pending
    answering := m.answering || (taken && m.returns && m.answers posts) }

theorem answers_eq_true {m : Mail} {posts : List PostId} :
    m.answers posts = true ↔ ∃ id ∈ posts, ∃ post, m.post id = some post ∧ m.byParent post = true := by
  unfold answers
  simp only [List.any_eq_true, Option.any_eq_true]

end Mail

theorem entries_foldl_erase (posts : List PostId) (pending : SortedMap PostId Post) :
    (posts.foldl SortedMap.erase pending).entries = pending.entries.filter fun e => e.1 ∉ posts := by
  induction posts generalizing pending with
  | nil => simp
  | cons id posts ih =>
    rw [List.foldl_cons, ih, SortedMap.entries_erase, List.filter_filter]
    apply List.filter_congr
    intro e _
    simp [List.mem_cons, not_or, Bool.and_comm]

theorem get_foldl_erase {posts : List PostId} {pending : SortedMap PostId Post} {id : PostId} {post : Post} :
    (posts.foldl SortedMap.erase pending).get id = some post ↔ id ∉ posts ∧ pending.get id = some post := by
  rw [SortedMap.get_eq_some, entries_foldl_erase, List.mem_filter, SortedMap.get_eq_some]
  simp [and_comm]

theorem get_erase_of_ne {pending : SortedMap PostId Post} {id other : PostId} (h : other ≠ id) :
    (pending.erase id).get other = pending.get other := by
  apply Option.ext
  intro post
  have := @get_foldl_erase [id] pending other post
  simp only [List.foldl_cons, List.foldl_nil, List.mem_singleton, h, not_false_eq_true, true_and] at this
  exact this

theorem answers_removed {m : Mail} {id : PostId} {posts : List PostId} (h : id ∉ posts) (taken : Bool) :
    (m.removed [id] taken).answers posts = m.answers posts := by
  rw [Bool.eq_iff_iff, Mail.answers_eq_true, Mail.answers_eq_true]
  constructor
  · intro ⟨other, hother, post, hpost, hby⟩
    have hne : other ≠ id := fun he => h (he ▸ hother)
    exact ⟨other, hother, post, (get_erase_of_ne hne).symm.trans hpost, hby⟩
  · intro ⟨other, hother, post, hpost, hby⟩
    have hne : other ≠ id := fun he => h (he ▸ hother)
    exact ⟨other, hother, post, (get_erase_of_ne hne).trans hpost, hby⟩

theorem removed_cons {m : Mail} {id : PostId} {posts : List PostId} (h : id ∉ posts) (taken : Bool) :
    (m.removed [id] taken).removed posts taken = m.removed (id :: posts) taken := by
  have hcons : m.answers (id :: posts) = (m.answers [id] || m.answers posts) := by
    simp [Mail.answers]
  have hdebt : ((m.removed [id] taken).answering || (taken && m.returns && (m.removed [id] taken).answers posts)) =
      (m.answering || (taken && m.returns && m.answers (id :: posts))) := by
    rw [answers_removed h, hcons]
    unfold Mail.removed
    cases taken <;> cases m.returns <;> simp [Bool.or_assoc]
  exact congrArg (fun debt : Bool =>
    { m with pending := posts.foldl SortedMap.erase (m.pending.erase id), answering := debt }) hdebt

theorem removeOne_eq {m : Mail} {id : PostId} (taken : Bool) (pending : (m.post id).isSome) :
    Mail.removeOne taken m id = .ok (m.removed [id] taken) := by
  obtain ⟨post, hpost⟩ := Option.isSome_iff_exists.mp pending
  have hget : m.pending.get id = some post := hpost
  unfold Mail.removeOne Mail.removed Mail.answers
  simp [hget, hpost]

theorem foldlM_removeOne {posts : List PostId} {m : Mail} {taken : Bool} (nodup : posts.Nodup)
    (pending : ∀ id ∈ posts, (m.post id).isSome) :
    posts.foldlM (Mail.removeOne taken) m = .ok (m.removed posts taken) := by
  induction posts generalizing m with
  | nil => simp [Mail.removed, Mail.answers, pure, Except.pure]
  | cons id posts ih =>
    obtain ⟨hnew, hnodup⟩ := List.nodup_cons.mp nodup
    rw [List.foldlM_cons, removeOne_eq taken (pending id List.mem_cons_self)]
    show posts.foldlM (Mail.removeOne taken) (m.removed [id] taken) = _
    rw [ih hnodup, removed_cons hnew]
    intro other hother
    have hne : other ≠ id := fun he => hnew (he ▸ hother)
    have hsame : (m.removed [id] taken).post other = m.post other := get_erase_of_ne hne
    rw [hsame]
    exact pending other (List.mem_cons_of_mem _ hother)

theorem remove_eq {posts : NonEmpty PostId} {m : Mail} {taken : Bool} (nodup : posts.toList.Nodup)
    (pending : ∀ id ∈ posts.toList, (m.post id).isSome) :
    m.remove posts taken = .ok (m.removed posts.toList taken) :=
  foldlM_removeOne nodup pending

def Mail.pend (m : Mail) (commit : ℕ) (post : Post) : Mail :=
  { m with pending := m.pending.insert commit post, named := commit }

/-! ## What each record does -/

namespace Folds

variable {f : Folds} {commit : ℕ}

theorem stepLine_nil (f : Folds) (commit : ℕ) : f.stepLine commit [] = .ok f := rfl

theorem stepLine_cons {g : Folds} {control : Control} (h : f.step commit control = .ok g) (line : List Control) :
    f.stepLine commit (control :: line) = g.stepLine commit line := by
  unfold stepLine
  rw [List.foldlM_cons, h]
  rfl

theorem stepLine_one {g : Folds} {control : Control} (h : f.step commit control = .ok g) :
    f.stepLine commit [control] = .ok g := by
  rw [stepLine_cons h, stepLine_nil]

theorem stepLine_append {g : Folds} {xs : List Control} (h : f.stepLine commit xs = .ok g) (ys : List Control) :
    f.stepLine commit (xs ++ ys) = g.stepLine commit ys := by
  unfold stepLine at h ⊢
  rw [List.foldlM_append, h]
  rfl

theorem step_of {control : Control} {mail : Mail} {schedules : Schedules} {model : Model}
    (head : ∀ started, control ≠ .sessionStarted started) (hmail : f.mail.step commit control = .ok mail)
    (hschedules : f.schedules.step control = .ok schedules) (hmodel : f.model.step control = .ok model) :
    f.step commit control = .ok ⟨mail, schedules, model⟩ := by
  have hrun : f.step commit control = (do
      let mail ← f.mail.step commit control
      let schedules ← f.schedules.step control
      let model ← f.model.step control
      .ok ⟨mail, schedules, model⟩) := by
    cases control with
    | sessionStarted started => exact absurd rfl (head started)
    | _ => rfl
  rw [hrun, hmail, hschedules, hmodel]
  rfl

theorem step_scheduled (f : Folds) (commit : ℕ) (label : String) (schedule : Schedule) :
    f.step commit (.scheduled label schedule) = .ok { f with schedules := f.schedules.insert label schedule } := rfl

theorem step_modelChanged (f : Folds) (commit : ℕ) (selected : Selected) :
    f.step commit (.modelChanged selected) = .ok { f with model := .new selected } := rfl

theorem step_windowNarrowed {model : String} {limit : ℕ} (h : f.model.narrows model limit = true) (commit : ℕ) :
    f.step commit (.windowNarrowed model limit) =
      .ok { f with model := { f.model with narrowed := some limit } } :=
  step_of nofun rfl rfl (if_pos h)

theorem step_unscheduled {label : String} (h : (f.schedules.get label).isSome) (commit : ℕ) :
    f.step commit (.unscheduled label) = .ok { f with schedules := f.schedules.erase label } := by
  obtain ⟨schedule, hget⟩ := Option.isSome_iff_exists.mp h
  refine step_of (fun _ h => by cases h) rfl ?_ rfl
  rw [Schedules.step, hget]

theorem step_jobOpened (idle : f.mail.job = none) (fresh : f.mail.named < commit) :
    f.step commit .jobOpened = .ok { f with mail := { f.mail with job := some commit, named := commit } } := by
  have free : ¬ (f.mail.job.isSome || decide (commit ≤ f.mail.named)) = true := by
    simp [idle, fresh]
  exact step_of nofun (if_neg free) rfl rfl

theorem step_jobSettled {job : JobId} (h : f.mail.job = some job) (commit : ℕ) (stopped : Bool) :
    f.step commit (.jobSettled job stopped) = .ok { f with mail := { f.mail with job := none } } :=
  step_of nofun (if_neg (not_not.mpr h)) rfl rfl

theorem step_posted (fresh : f.mail.named < commit) (post : Post) :
    f.step commit (.posted post) = .ok { f with mail := f.mail.pend commit post } :=
  step_of nofun (if_neg (Nat.not_le.mpr fresh)) rfl rfl

theorem step_taken {posts : NonEmpty PostId} (nodup : posts.toList.Nodup)
    (pending : ∀ id ∈ posts.toList, (f.mail.post id).isSome) (commit : ℕ) :
    f.step commit (.taken posts) = .ok { f with mail := f.mail.removed posts.toList true } :=
  step_of nofun (remove_eq nodup pending) rfl rfl

theorem step_withdrawn {posts : NonEmpty PostId} (nodup : posts.toList.Nodup)
    (pending : ∀ id ∈ posts.toList, (f.mail.post id).isSome) (commit : ℕ) :
    f.step commit (.withdrawn posts) = .ok { f with mail := f.mail.removed posts.toList false } :=
  step_of nofun (remove_eq nodup pending) rfl rfl

/-- Every schedule unbooked, in label order. -/
theorem stepLine_retired (f : Folds) (commit : ℕ) :
    f.stepLine commit (f.schedules.entries.map fun e => .unscheduled e.1) =
      .ok { f with schedules := SortedMap.empty } := by
  have general : ∀ (entries : List (String × Schedule)) (f : Folds), f.schedules.entries = entries →
      f.stepLine commit (entries.map fun e => .unscheduled e.1) =
        .ok { f with schedules := SortedMap.empty } := by
    intro entries
    induction entries with
    | nil =>
      intro f hf
      have hempty : f.schedules = SortedMap.empty := SortedMap.ext hf
      rw [List.map_nil, stepLine_nil, ← hempty]
    | cons e entries ih =>
      intro f hf
      have hbooked : (f.schedules.get e.1).isSome := by
        rw [SortedMap.get_isSome, hf]
        simp
      have hrest : (f.schedules.erase e.1).entries = entries := by
        have hasc := f.schedules.ascending
        rw [hf, List.pairwise_cons] at hasc
        rw [SortedMap.entries_erase, hf, List.filter_cons]
        simp only [ne_eq, not_true_eq_false, decide_false, Bool.false_eq_true, if_false]
        apply List.filter_eq_self.mpr
        intro x hx
        simpa using ne_of_gt (hasc.1 x hx)
      rw [List.map_cons, stepLine_cons (step_unscheduled hbooked commit)]
      exact ih { f with schedules := f.schedules.erase e.1 } hrest
  exact general _ f rfl

end Folds

/-! ## Appends -/

namespace Shared

def appended (s : Shared) (line : List Control) (folds : Folds) : Shared :=
  { s with
    journal := ⟨s.journal.commits + 1, false, s.journal.records ++ line.map (s.journal.commits + 1, ·)⟩
    cell := { s.cell with folds } }

/-- After the append, without the payloads it removed. -/
def written (s : Shared) (line : List Control) (folds : Folds) : Shared := (s.appended line folds).prune.2

/-- The payloads that an append removes. -/
def leaving (s : Shared) (mail : Mail) : List Queued := s.cell.queue.filterMap mail.leaves

end Shared

section Rules
variable {s : Shared} {ok : Bool} {line : NonEmpty Control} {folds : Folds}

theorem ends_commitTo {Q : Except Fault ℕ → Shared → Prop}
    (hline : s.cell.folds.stepLine (s.journal.commits + 1) line.toList = .ok folds)
    (fails : Q (.error .unavailable) s.latched)
    (writes : s.journal.failed = false → Q (.ok (s.journal.commits + 1)) (s.appended line.toList folds)) :
    Run.Ends (commitTo line ok) s Q := by
  cases hfailed : s.journal.failed with
  | true => exact ⟨_, s.latched, by simp [commitTo, hfailed], fails⟩
  | false =>
    cases ok with
    | false => exact ⟨_, s.latched, by simp [commitTo], fails⟩
    | true => exact ⟨_, _, by simp [commitTo, hfailed, hline, Shared.appended], writes hfailed⟩

theorem ends_commit {Q : Except Fault (List Queued) → Shared → Prop}
    (posts : line.toList.any isPosted = false)
    (hline : s.cell.folds.stepLine (s.journal.commits + 1) line.toList = .ok folds)
    (fails : Q (.error .unavailable) s.latched)
    (writes : s.journal.failed = false → Q (.ok (s.leaving folds.mail)) (s.written line.toList folds)) :
    Run.Ends (commit line ok) s Q := by
  unfold commit
  rw [if_neg (by simp [posts])]
  refine Run.ends_bind (ends_commitTo hline fails ?_)
  intro hfailed
  exact Run.ends_act (writes hfailed)

theorem ends_sync {Q : Except Fault Unit → Shared → Prop} {synced : Bool}
    (fails : Q (.error .unavailable) s.latched) (syncs : s.journal.failed = false → Q (.ok ()) s) :
    Run.Ends (sync synced) s Q := by
  cases hfailed : s.journal.failed with
  | true => exact ⟨_, s.latched, by simp [sync, hfailed], fails⟩
  | false =>
    cases synced with
    | false => exact ⟨_, s.latched, by simp [sync], fails⟩
    | true => exact ⟨_, s, by simp [sync, hfailed], syncs hfailed⟩

end Rules

/-! ## The cell beside the log -/

section Cell
variable [Wording]

def Item.recorded : Item → Option (PostId × Post)
  | .posted id queued => some (id, queued.posted)
  | .gone _ => none

def recorded (queue : List Item) : List (PostId × Post) := queue.filterMap Item.recorded

/-- The cell of a log that `seed` heads. -/
structure Shared.Replays (seed : Folds) (s : Shared) : Prop where
  replay : seed.replay s.journal.records = .ok s.cell.folds
  named : s.mail.named ≤ s.journal.commits
  ids : ∀ e ∈ s.mail.pending.entries, e.1 ≤ s.mail.named
  kept : (recorded s.cell.queue).Sublist s.mail.pending.entries
  owned : s.owned = true → recorded s.cell.queue = s.mail.pending.entries

theorem recorded_keeps (mail : Mail) (queue : List Item) :
    recorded (queue.filter mail.keeps) = (recorded queue).filter fun e => (mail.post e.1).isSome := by
  induction queue with
  | nil => rfl
  | cons item queue ih =>
    unfold recorded at ih ⊢
    cases item with
    | gone id =>
      rw [List.filter_cons_of_pos rfl, List.filterMap_cons_none rfl, List.filterMap_cons_none rfl, ih]
    | posted id queued =>
      cases hpost : mail.post id <;>
        simp [Mail.keeps, Mail.leaves, Item.recorded, hpost, ih]

namespace Shared.Replays
variable {seed : Folds} {s : Shared}

theorem latched (h : s.Replays seed) : s.latched.Replays seed := ⟨h.replay, h.named, h.ids, h.kept, h.owned⟩

theorem replay_appended (h : s.Replays seed) {line : List Control} {folds : Folds}
    (hline : s.cell.folds.stepLine (s.journal.commits + 1) line = .ok folds) :
    seed.replay (s.appended line folds).journal.records = .ok folds := by
  show seed.replay (s.journal.records ++ line.map (s.journal.commits + 1, ·)) = _
  rw [Folds.replay_append, h.replay]
  show s.cell.folds.replay _ = _
  rw [Folds.replay_line, hline]

theorem pending_of_mem (h : s.Replays seed) {id : PostId} {queued : Queued} (hitem : .posted id queued ∈ s.cell.queue) :
    s.mail.post id = some queued.posted := by
  have hmem : (id, queued.posted) ∈ recorded s.cell.queue :=
    List.mem_filterMap.mpr ⟨_, hitem, rfl⟩
  exact SortedMap.get_eq_some.mpr (h.kept.subset hmem)

/-- A line that posts nothing, and leaves pending all but `posts`. -/
theorem written (h : s.Replays seed) {line : List Control} {folds : Folds} {posts : List PostId}
    (hline : s.cell.folds.stepLine (s.journal.commits + 1) line = .ok folds)
    (hpending : folds.mail.pending = posts.foldl SortedMap.erase s.mail.pending)
    (hnamed : s.mail.named ≤ folds.mail.named) (hbound : folds.mail.named ≤ s.journal.commits + 1) :
    (s.written line folds).Replays seed := by
  have hentries : folds.mail.pending.entries = s.mail.pending.entries.filter fun e => e.1 ∉ posts := by
    rw [hpending, entries_foldl_erase]
  have hqueue : recorded (s.written line folds).cell.queue =
      (recorded s.cell.queue).filter fun e => e.1 ∉ posts := by
    show recorded (s.cell.queue.filter folds.mail.keeps) = _
    rw [recorded_keeps]
    apply List.filter_congr
    intro e he
    have hget : s.mail.pending.get e.1 = some e.2 := SortedMap.get_eq_some.mpr (h.kept.subset he)
    show (folds.mail.pending.get e.1).isSome = _
    rw [hpending, Bool.eq_iff_iff, Option.isSome_iff_exists]
    simp only [get_foldl_erase, hget]
    simp
  refine ⟨h.replay_appended hline, hbound, ?_, ?_, ?_⟩
  · intro e he
    have hold : e ∈ s.mail.pending.entries := by
      have he' : e ∈ folds.mail.pending.entries := he
      rw [hentries] at he'
      exact (List.mem_filter.mp he').1
    exact (h.ids e hold).trans hnamed
  · show (recorded (s.written line folds).cell.queue).Sublist folds.mail.pending.entries
    rw [hqueue, hentries]
    exact h.kept.filter _
  · intro howned
    show recorded (s.written line folds).cell.queue = folds.mail.pending.entries
    rw [hqueue, hentries, h.owned howned]

/-- A post, and perhaps a change of the schedules. -/
theorem posted (h : s.Replays seed) {item : Queued} {change : Option Control} {folds : Folds}
    (hline : s.cell.folds.stepLine (s.journal.commits + 1) (.posted item.posted :: change.toList) = .ok folds)
    (hpending : folds.mail.pending = s.mail.pending.insert (s.journal.commits + 1) item.posted)
    (hnamed : folds.mail.named = s.journal.commits + 1) :
    ((s.appended (.posted item.posted :: change.toList) folds).setQueue
      (s.cell.queue ++ [.posted (s.journal.commits + 1) item])).Replays seed := by
  have hlast : ∀ e ∈ s.mail.pending.entries, e.1 < s.journal.commits + 1 := by
    intro e he
    exact Nat.lt_succ_of_le ((h.ids e he).trans h.named)
  have hentries : folds.mail.pending.entries =
      s.mail.pending.entries ++ [(s.journal.commits + 1, item.posted)] := by
    rw [hpending, SortedMap.entries_insert_last hlast]
  have hqueue : recorded (s.cell.queue ++ [.posted (s.journal.commits + 1) item]) =
      recorded s.cell.queue ++ [(s.journal.commits + 1, item.posted)] := by
    unfold recorded
    rw [List.filterMap_append]
    rfl
  refine ⟨h.replay_appended hline, le_of_eq hnamed, ?_, ?_, ?_⟩
  · intro e he
    have he' : e ∈ folds.mail.pending.entries := he
    rw [hentries, List.mem_append, List.mem_singleton] at he'
    show e.1 ≤ folds.mail.named
    rw [hnamed]
    rcases he' with he' | he'
    · exact le_of_lt (hlast e he')
    · rw [he']
  · show (recorded (s.cell.queue ++ _)).Sublist folds.mail.pending.entries
    rw [hqueue, hentries]
    exact h.kept.append_right _
  · intro howned
    show recorded (s.cell.queue ++ _) = folds.mail.pending.entries
    rw [hqueue, hentries, h.owned howned]

end Shared.Replays

end Cell

/-! ## Runs

The grouping of a queue: what a run is, and that the one pass that computes it finds
exactly those.
-/

variable {T H : Type}

namespace Part

def isPost : Part T H → Bool
  | .human _ => false
  | .post _ => true
  | .aside _ => false

def human? : Part T H → Option H
  | .human h => some h
  | .post _ => none
  | .aside _ => none

def aside? : Part T H → Option T
  | .human _ => none
  | .post _ => none
  | .aside t => some t

end Part

/-- The items up to the next post that is not human. -/
def inRun (parts : List (Part T H)) : List (Part T H) := parts.takeWhile fun part => !part.isPost

def pastRun (parts : List (Part T H)) : List (Part T H) := parts.dropWhile fun part => !part.isPost

theorem inRun_append_pastRun (parts : List (Part T H)) : inRun parts ++ pastRun parts = parts :=
  List.takeWhile_append_dropWhile

/-- The groups of a list: a run is every human post up to another post, with the asides
met inside it after it. -/
inductive Grouped : List (Part T H) → List (Group T H) → Prop
  | nil : Grouped [] []
  | post {parts : List (Part T H)} {groups : List (Group T H)} (t : T) :
      Grouped parts groups → Grouped (.post t :: parts) (.one t :: groups)
  | aside {parts : List (Part T H)} {groups : List (Group T H)} (t : T) :
      Grouped parts groups → Grouped (.aside t :: parts) (.one t :: groups)
  | run {parts : List (Part T H)} {groups : List (Group T H)} (h : H) :
      Grouped (pastRun parts) groups →
      Grouped (.human h :: parts)
        (.run ⟨h, (inRun parts).filterMap Part.human?⟩ ::
          ((inRun parts).filterMap Part.aside?).map .one ++ groups)

theorem runsFrom_some (parts : List (Part T H)) (run : NonEmpty H) (asides : List T) :
    runsFrom (some (run, asides)) parts =
      .run ⟨run.first, run.rest ++ (inRun parts).filterMap Part.human?⟩ ::
        (asides ++ (inRun parts).filterMap Part.aside?).map .one ++ runs (pastRun parts) := by
  induction parts generalizing run asides with
  | nil => simp [runsFrom, close, inRun, pastRun, runs]
  | cons part parts ih =>
    cases part with
    | human h =>
      rw [runsFrom, ih]
      simp [inRun, pastRun, Part.isPost, Part.human?, Part.aside?, List.filterMap_cons]
    | aside t =>
      rw [runsFrom, ih]
      simp [inRun, pastRun, Part.isPost, Part.human?, Part.aside?, List.filterMap_cons]
    | post t => simp [runsFrom, close, inRun, pastRun, Part.isPost, runs]

@[simp] theorem runs_nil : runs ([] : List (Part T H)) = [] := rfl

@[simp] theorem runs_post (t : T) (parts : List (Part T H)) :
    runs (.post t :: parts) = .one t :: runs parts := rfl

@[simp] theorem runs_aside (t : T) (parts : List (Part T H)) :
    runs (.aside t :: parts) = .one t :: runs parts := rfl

theorem runs_human (h : H) (parts : List (Part T H)) :
    runs (.human h :: parts) = .run ⟨h, (inRun parts).filterMap Part.human?⟩ ::
      ((inRun parts).filterMap Part.aside?).map .one ++ runs (pastRun parts) := by
  show runsFrom (some (⟨h, []⟩, [])) parts = _
  rw [runsFrom_some]
  rfl

theorem length_pastRun_le (parts : List (Part T H)) : (pastRun parts).length ≤ parts.length :=
  (List.dropWhile_sublist _).length_le

theorem grouped_runs (parts : List (Part T H)) : Grouped parts (runs parts) := by
  match parts with
  | [] => exact .nil
  | .post t :: parts => exact .post t (grouped_runs parts)
  | .aside t :: parts => exact .aside t (grouped_runs parts)
  | .human h :: parts =>
    rw [runs_human]
    exact .run h (grouped_runs (pastRun parts))
termination_by parts.length
decreasing_by
  · simp
  · simp
  · have := length_pastRun_le parts
    simp only [List.length_cons]
    omega

theorem Grouped.humans {parts : List (Part T H)} {groups : List (Group T H)} (h : Grouped parts groups) :
    (groups.filterMap Group.run?).flatMap NonEmpty.toList = parts.filterMap Part.human? := by
  induction h with
  | nil => rfl
  | post t _ ih => simpa [Part.human?, Group.run?, List.filterMap_cons] using ih
  | aside t _ ih => simpa [Part.human?, Group.run?, List.filterMap_cons] using ih
  | @run parts groups h _ ih =>
    have hsplit : parts.filterMap Part.human? =
        (inRun parts).filterMap Part.human? ++ (pastRun parts).filterMap Part.human? := by
      rw [← List.filterMap_append, inRun_append_pastRun]
    have hones : (((inRun parts).filterMap Part.aside?).map Group.one : List (Group T H)).filterMap
        Group.run? = [] := by
      simp [List.filterMap_map, Function.comp_def, Group.run?]
    have hposts : Group.run? (.run ⟨h, (inRun parts).filterMap Part.human?⟩ : Group T H) =
        some ⟨h, (inRun parts).filterMap Part.human?⟩ := rfl
    rw [List.cons_append, List.filterMap_cons_some hposts, List.filterMap_append, hones, List.nil_append,
      List.flatMap_cons, ih]
    show h :: ((inRun parts).filterMap Part.human? ++ (pastRun parts).filterMap Part.human?) =
      h :: parts.filterMap Part.human?
    rw [hsplit]

end Ral.Mailbox
