import Ral.Mailbox.Delivery

/-! # Jobs and debts

Jobs open and settle in turn, and say truly whether they were stopped. A returning agent
tells its parent of every post it accepted from it, and of nothing else.
-/

namespace Ral.Mailbox
open Ral.Data Ral.Session Ral.Record

/-! ## Jobs -/

def Alternates : Option JobId → List (ℕ × Control) → Prop
  | _, [] => True
  | none, (commit, .jobOpened) :: records => Alternates (some commit) records
  | some job, (_, .jobSettled settled _) :: records => settled = job ∧ Alternates none records
  | some _, (_, .jobOpened) :: _ => False
  | none, (_, .jobSettled _ _) :: _ => False
  | openJob, _ :: records => Alternates openJob records

/-- A record about anything but jobs leaves the job alone. -/
theorem step_job {m m' : Mail} {commit : ℕ} {control : Control} (hkind : control.isJob = false)
    (h : m.step commit control = .ok m') : m'.job = m.job := by
  have hremove : ∀ {posts : NonEmpty PostId} {taken : Bool}, m.remove posts taken = .ok m' → m'.job = m.job := by
    intro posts taken hposts
    refine Fallible.foldlM_invariant (P := fun n : Mail => n.job = m.job) (Q := fun _ => True) ?_
      (fun _ _ => trivial) rfl hposts
    intro s id t hs _ hone
    unfold Mail.removeOne at hone
    split at hone
    · cases hone
    · cases hone
      exact hs
  cases control with
  | jobOpened => cases hkind
  | jobSettled job stopped => cases hkind
  | posted post =>
    simp only [Mail.step] at h
    split at h
    · cases h
    · cases h
      rfl
  | taken posts => exact hremove h
  | withdrawn posts => exact hremove h
  | sessionStarted _ | sessionResumed _ _ | status _ | scheduled _ _ | unscheduled _ | modelChanged _
  | windowNarrowed _ _ =>
    cases h
    rfl

theorem alternates_of_other {openJob : Option JobId} {commit : ℕ} {control : Control} {records : List (ℕ × Control)}
    (hkind : control.isJob = false) (h : Alternates openJob records) :
    Alternates openJob ((commit, control) :: records) := by
  cases control with
  | jobOpened => cases hkind
  | jobSettled job stopped => cases hkind
  | _ => cases openJob <;> exact h

/-- A log that replays has its jobs in turn. -/
theorem replay_alternates {f f' : Folds} {records : List (ℕ × Control)} (h : f.replay records = .ok f') :
    Alternates f.mail.job records := by
  induction records generalizing f with
  | nil => cases hjob : f.mail.job <;> trivial
  | cons record records ih =>
    obtain ⟨commit, control⟩ := record
    obtain ⟨middle, hstep, hrest⟩ := Fallible.foldlM_cons_eq_ok.mp h
    have hmail := folds_step_mail hstep
    have hih := ih hrest
    cases hkind : control.isJob with
    | false =>
      rw [step_job hkind hmail] at hih
      exact alternates_of_other hkind hih
    | true =>
      cases control with
      | jobOpened =>
        simp only [Mail.step] at hmail
        split at hmail
        · cases hmail
        · next hopen =>
            have hjob : f.mail.job = none := by
              simp only [Bool.or_eq_true, not_or, Option.not_isSome_iff_eq_none] at hopen
              exact hopen.1
            have hmiddle : middle.mail.job = some commit := by
              rw [← Except.ok.inj hmail]
            rw [hjob]
            rw [hmiddle] at hih
            exact hih
      | jobSettled job stopped =>
        simp only [Mail.step] at hmail
        split at hmail
        · cases hmail
        · next hjob =>
            have hmiddle : middle.mail.job = none := by
              rw [← Except.ok.inj hmail]
            rw [not_not.mp hjob]
            rw [hmiddle] at hih
            exact ⟨rfl, hih⟩
      | _ => cases hkind

section Jobs
variable [Wording] {seed : Folds}

def World.hits (w : World) (events : List Event) : List JobId :=
  (w.moments events).filterMap fun m => m.event.hit m.before.shared

/-- What is known of the jobs once `hits` were hit; `since` are the records since birth. -/
structure Judged (s : Shared) (since : List (ℕ × Control)) (hits : List JobId) : Prop where
  settled : ∀ commit job stopped, (commit, .jobSettled job stopped) ∈ since → (stopped = true ↔ job ∈ hits)
  past : s.poisoned = false → ∀ commit job stopped, (commit, .jobSettled job stopped) ∈ since →
    job ≤ s.mail.named ∧ s.mail.job ≠ some job
  marked : s.poisoned = false → ∀ job, s.mail.job = some job → (s.cell.stopped = true ↔ job ∈ hits) ∧ job ≤ s.mail.named
  bound : s.poisoned = false → ∀ job ∈ hits, job ≤ s.mail.named

omit [Wording] in
theorem no_settled {line : List Control} {commit : ℕ} (h : ∀ control ∈ line, control.isJob = false)
    {at' : ℕ} {job : JobId} {stopped : Bool} : (at', Control.jobSettled job stopped) ∉ line.map (commit, ·) := by
  intro hmem
  obtain ⟨control, hcontrol, he⟩ := List.mem_map.mp hmem
  cases he
  cases h _ hcontrol

omit [Wording] in
theorem Judged.aside {s s' : Shared} {since : List (ℕ × Control)} {hits : List JobId} (h : Judged s since hits)
    (hpoisoned : s'.poisoned = s.poisoned) (hnamed : s.mail.named ≤ s'.mail.named) (hjob : s'.mail.job = s.mail.job)
    (hstopped : s'.cell.stopped = s.cell.stopped) {line : List Control}
    (hline : ∀ control ∈ line, control.isJob = false) (commit : ℕ) :
    Judged s' (since ++ line.map (commit, ·)) hits := by
  have hold : ∀ {at' job stopped}, (at', Control.jobSettled job stopped) ∈ since ++ line.map (commit, ·) →
      (at', Control.jobSettled job stopped) ∈ since := by
    intro at' job stopped hmem
    rcases List.mem_append.mp hmem with hmem | hmem
    · exact hmem
    · exact absurd hmem (no_settled hline)
  refine ⟨?_, ?_, ?_, ?_⟩
  · exact fun at' job stopped hmem => h.settled at' job stopped (hold hmem)
  · intro hp at' job stopped hmem
    obtain ⟨hle, hne⟩ := h.past (hpoisoned ▸ hp) at' job stopped (hold hmem)
    exact ⟨hle.trans hnamed, hjob ▸ hne⟩
  · intro hp job hopen
    obtain ⟨hiff, hle⟩ := h.marked (hpoisoned ▸ hp) job (hjob ▸ hopen)
    exact ⟨hstopped ▸ hiff, hle.trans hnamed⟩
  · exact fun hp job hmem => (h.bound (hpoisoned ▸ hp) job hmem).trans hnamed

theorem Judged.move {s s' : Shared} {since : List (ℕ × Control)} {hits : List JobId} (h : Judged s since hits)
    (hp : s.poisoned = false) {line : List Control} (hadv : Advances seed s s' line) {hit : Option JobId}
    (hmove : JobMove s s' hit line) : Judged s' (since ++ line.map (s'.journal.commits, ·)) (hits ++ hit.toList) := by
  cases hmove with
  | steady hhit hsteady =>
    subst hhit
    have := h.aside hadv.poisoned hadv.named hsteady.job hsteady.stopped hsteady.records s'.journal.commits
    rwa [Option.toList_none, List.append_nil]
  | @stops job hhit hopen hopen' hstopped hline =>
    subst hhit
    have hle := (h.marked hp job hopen).2
    have hold : ∀ {at' settled stopped}, (at', Control.jobSettled settled stopped) ∈
        since ++ line.map (s'.journal.commits, ·) → (at', Control.jobSettled settled stopped) ∈ since := by
      intro at' settled stopped hmem
      rcases List.mem_append.mp hmem with hmem | hmem
      · exact hmem
      · exact absurd hmem (no_settled hline)
    refine ⟨?_, ?_, ?_, ?_⟩
    · intro at' settled stopped hmem
      have hne : settled ≠ job := by
        intro he
        exact (h.past hp at' settled stopped (hold hmem)).2 (he ▸ hopen)
      rw [h.settled at' settled stopped (hold hmem), Option.toList_some, List.mem_append, List.mem_singleton]
      exact ⟨Or.inl, fun hor => hor.resolve_right hne⟩
    · intro _ at' settled stopped hmem
      obtain ⟨hbound, hne⟩ := h.past hp at' settled stopped (hold hmem)
      exact ⟨hbound.trans hadv.named, by rw [hopen', ← hopen]; exact hne⟩
    · intro _ other hother
      rw [hopen'] at hother
      cases hother
      exact ⟨⟨fun _ => by simp, fun _ => hstopped⟩, hle.trans hadv.named⟩
    · intro _ other hmem
      rcases List.mem_append.mp hmem with hmem | hmem
      · exact (h.bound hp other hmem).trans hadv.named
      · rw [Option.toList_some, List.mem_singleton] at hmem
        exact hmem ▸ hle.trans hadv.named
  | opens hhit hidle hopen hnew hnamed hstopped hline =>
    subst hhit hline
    rw [Option.toList_none, List.append_nil]
    have hold : ∀ {at' settled stopped}, (at', Control.jobSettled settled stopped) ∈
        since ++ [Control.jobOpened].map (s'.journal.commits, ·) →
        (at', Control.jobSettled settled stopped) ∈ since := by
      intro at' settled stopped hmem
      simpa using hmem
    refine ⟨?_, ?_, ?_, ?_⟩
    · exact fun at' settled stopped hmem => h.settled at' settled stopped (hold hmem)
    · intro _ at' settled stopped hmem
      have hbound := (h.past hp at' settled stopped (hold hmem)).1
      refine ⟨hbound.trans hadv.named, ?_⟩
      rw [hopen]
      intro he
      cases he
      exact absurd hbound (not_le.mpr hnew)
    · intro _ other hother
      rw [hopen] at hother
      cases hother
      refine ⟨⟨fun htrue => ?_, fun hmem => ?_⟩, le_of_eq hnamed.symm⟩
      · exact absurd (hstopped.symm.trans htrue) Bool.false_ne_true
      · exact absurd (h.bound hp _ hmem) (not_le.mpr hnew)
    · exact fun _ other hmem => (h.bound hp other hmem).trans hadv.named
  | @settles job hhit hopen hclosed hstopped hline =>
    subst hhit hline
    rw [Option.toList_none, List.append_nil]
    obtain ⟨hiff, hle⟩ := h.marked hp job hopen
    refine ⟨?_, ?_, ?_, ?_⟩
    · intro at' settled stopped hmem
      rcases List.mem_append.mp hmem with hmem | hmem
      · exact h.settled at' settled stopped hmem
      · cases List.mem_singleton.mp hmem
        exact hiff
    · intro _ at' settled stopped hmem
      refine ⟨?_, by rw [hclosed]; simp⟩
      rcases List.mem_append.mp hmem with hmem | hmem
      · exact (h.past hp at' settled stopped hmem).1.trans hadv.named
      · cases List.mem_singleton.mp hmem
        exact hle.trans hadv.named
    · intro _ other hother
      rw [hclosed] at hother
      cases hother
    · exact fun _ other hmem => (h.bound hp other hmem).trans hadv.named

omit [Wording] in
theorem Judged.dead {s s' : Shared} {since : List (ℕ × Control)} {hits : List JobId} (h : Judged s since hits)
    (hdead : s'.poisoned = true) : Judged s' since hits :=
  ⟨h.settled, fun hp => absurd (hdead.symm.trans hp) (by simp), fun hp => absurd (hdead.symm.trans hp) (by simp),
    fun hp => absurd (hdead.symm.trans hp) (by simp)⟩

theorem Judged.step {s s' : Shared} {since : List (ℕ × Control)} {hits : List JobId} (h : Judged s since hits)
    {hit : Option JobId} (heffect : Effect seed s s' hit) :
    ∃ more, s'.journal.records = s.journal.records ++ more ∧ Judged s' (since ++ more) (hits ++ hit.toList) := by
  cases heffect with
  | moved hp hadv hmove => exact ⟨_, hadv.records, h.move hp hadv hmove⟩
  | reported hp hhit hreports =>
    obtain ⟨line, hrecords, hline⟩ := hreports.filed.records
    have haside := h.aside hreports.filed.poisoned hreports.filed.named hreports.filed.job hreports.filed.stopped
      hline s'.journal.commits
    rw [hhit, Option.toList_none, List.append_nil]
    exact ⟨_, hrecords, haside⟩
  | dead hhit hdead =>
    rw [hhit, Option.toList_none, List.append_nil]
    exact ⟨[], by simp [hdead.records], by simpa using h.dead hdead.poisoned⟩
  | failure hhit _ hdead =>
    rw [hhit, Option.toList_none, List.append_nil]
    exact ⟨[], by simp [hdead.records], by simpa using h.dead hdead.poisoned⟩

theorem World.hits_cons (w : World) (event : Event) (events : List Event) :
    w.hits (event :: events) = (event.hit w.shared).toList ++ (w.step event).2.hits events := by
  show ((w.moment event :: (w.step event).2.moments events).filterMap _) = _
  rw [List.filterMap_cons]
  cases hhit : (w.moment event).event.hit (w.moment event).before.shared with
  | none =>
    have : event.hit w.shared = none := hhit
    rw [this]
    rfl
  | some job =>
    have : event.hit w.shared = some job := hhit
    rw [this]
    rfl

theorem run_judged {w : World} (hsound : Sound seed w.shared) {since : List (ℕ × Control)} {hits : List JobId}
    (h : Judged w.shared since hits) (events : List Event) : ∃ more,
      (w.run events).shared.journal.records = w.shared.journal.records ++ more ∧
      Judged (w.run events).shared (since ++ more) (hits ++ w.hits events) := by
  induction events generalizing w since hits with
  | nil => exact ⟨[], by simp [World.run], by simpa [World.run, World.hits, World.moments] using h⟩
  | cons event events ih =>
    have heffect := step_effect hsound event
    obtain ⟨more, hrecords, hjudged⟩ := h.step heffect
    obtain ⟨more', hrecords', hjudged'⟩ := ih heffect.sound hjudged
    refine ⟨more ++ more', ?_, ?_⟩
    · rw [World.run_cons, hrecords', hrecords, List.append_assoc]
    · rw [World.run_cons, World.hits_cons, ← List.append_assoc, ← List.append_assoc]
      exact hjudged'

omit [Wording] in
theorem born_judged (b : Birth) : Judged b.world.shared [] [] := by
  refine ⟨?_, ?_, ?_, ?_⟩
  · exact fun _ _ _ hmem => by cases hmem
  · exact fun _ _ _ _ hmem => by cases hmem
  · intro _ job hjob
    have hidle : b.world.shared.mail.job = none := b.idle
    rw [hidle] at hjob
    cases hjob
  · exact fun _ _ hmem => by cases hmem

end Jobs

/-! ## Debts -/

section Debts
variable [Wording] {seed : Folds} {s s' : Shared}

def Queued.fromParent (parent : AgentId) : Queued → Bool
  | .input (.task message) | .input (.message message) => message.from' = parent
  | _ => false

/-- A post of the parent's is unanswered, and its failure not yet told. -/
def Due (s : Shared) : Prop :=
  s.failureNoticed = false ∧ s.parent.isSome = true ∧
    (s.poisoned = true ∨ (s.mail.returns = true ∧ (s.mail.answering = true ∨
      ∃ id post, s.mail.post id = some post ∧ post.voice = some .peer ∧ s.mail.byParent post = true)))

omit [Wording] in
theorem byParent_congr {m m' : Mail} (h : m'.parent = m.parent) (post : Post) : m'.byParent post = m.byParent post := by
  unfold Mail.byParent
  rw [h]

omit [Wording] in
theorem Due.owes (h : Due s) (hp : s.poisoned = false) : s.mail.owes = true := by
  obtain ⟨_, _, hdead | ⟨hreturns, hdebt⟩⟩ := h
  · exact absurd (hp.symm.trans hdead) (by simp)
  · unfold Mail.owes
    rw [hreturns, Bool.true_and, Bool.or_eq_true]
    rcases hdebt with hanswering | ⟨id, post, hpost, _, hby⟩
    · exact Or.inl hanswering
    · right
      exact List.any_eq_true.mpr ⟨(id, post), SortedMap.get_eq_some.mp hpost, hby⟩

omit [Wording] in
theorem tells_length (hparent : s.parent.isSome = true) (notice : Notice) : (s.tells notice).length = 1 := by
  obtain ⟨parent, h⟩ := Option.isSome_iff_exists.mp hparent
  simp [Shared.tells, h]

theorem Due.reported (h : Due s) (hp : s.poisoned = false) {status : ChildStatus} (hreports : Reports seed s s' status) :
    s.notices.length < s'.notices.length := by
  have howes := h.owes hp
  obtain ⟨hnoticed, hparent, _⟩ := h
  cases hreports.outcome with
  | unowed hno => exact absurd (hno.symm.trans howes) (by simp)
  | sent _ _ _ hnotices =>
    have := tells_length hparent (.report status)
    rw [hnotices, List.length_append]
    omega
  | failed _ _ _ hnotices =>
    have := tells_length hparent .failure
    rw [hnotices, hnoticed, List.length_append]
    simp only [Bool.false_eq_true, if_false]
    omega

/-- A debt stays until the parent is told. -/
theorem Due.step (h : Due s) {hit : Option JobId} (heffect : Effect seed s s' hit) :
    s.notices.length < s'.notices.length ∨ (Due s' ∧ s'.notices = s.notices) := by
  cases heffect with
  | moved hp hadv =>
    right
    obtain ⟨hnoticed, hparent, hdebt⟩ := h
    refine ⟨⟨hadv.noticed.trans hnoticed, by rw [hadv.parent]; exact hparent, ?_⟩, hadv.notices⟩
    right
    rcases hdebt with hdead | ⟨hreturns, hdebt⟩
    · exact absurd (hp.symm.trans hdead) (by simp)
    · refine ⟨hadv.moves.returns.trans hreturns, ?_⟩
      rcases hdebt with hanswering | ⟨id, post, hpost, hvoice, hby⟩
      · exact Or.inl (hadv.moves.answering hanswering)
      · rcases hadv.moves.peers id post hpost hvoice with hstays | htaken
        · exact Or.inr ⟨id, post, hstays, hvoice, by rw [byParent_congr hadv.moves.parent]; exact hby⟩
        · exact Or.inl (htaken hreturns hby)
  | reported hp _ hreports => exact Or.inl (h.reported hp hreports)
  | dead _ hdead hnotices hnoticed =>
    right
    exact ⟨⟨hnoticed.trans h.1, by rw [hdead.parent]; exact h.2.1, Or.inl hdead.poisoned⟩, hnotices⟩
  | failure _ _ _ _ hnotices =>
    left
    have := tells_length h.2.1 .failure
    rw [hnotices, h.1, List.length_append]
    simp only [Bool.false_eq_true, if_false]
    omega

theorem Effect.notices {hit : Option JobId} (h : Effect seed s s' hit) : s.notices <+: s'.notices := by
  cases h with
  | moved _ hadv _ => exact hadv.notices ▸ List.prefix_rfl
  | reported _ _ hreports =>
    cases hreports.outcome with
    | unowed _ hnotices _ => exact hnotices ▸ List.prefix_rfl
    | sent _ _ _ hnotices _ => exact hnotices ▸ List.prefix_append _ _
    | failed _ _ _ hnotices => exact hnotices ▸ List.prefix_append _ _
  | dead _ _ hnotices _ => exact hnotices ▸ List.prefix_rfl
  | failure _ _ _ _ hnotices => exact hnotices ▸ List.prefix_append _ _

theorem run_notices {w : World} (hsound : Sound seed w.shared) (events : List Event) :
    w.shared.notices <+: (w.run events).shared.notices := by
  induction events generalizing w with
  | nil => exact List.prefix_rfl
  | cons event events ih =>
    have heffect := step_effect hsound event
    exact heffect.notices.trans (ih heffect.sound)

/-! ## Kinship, and the one failure -/

def Notice.isFailure : Notice → Bool
  | .failure => true
  | .report _ => false

/-- What stays of an agent's birth, and what its failures come to. -/
structure Kept (b : Birth) (s : Shared) : Prop where
  parent : s.parent = b.parent
  mail : s.poisoned = false → s.mail.parent = b.folds.mail.parent ∧ s.mail.returns = b.folds.mail.returns
  noticed : s.failureNoticed = true → s.journal.failed = true ∨ s.poisoned = true
  failures : (s.notices.filter Notice.isFailure).length ≤ if s.failureNoticed then 1 else 0

omit [Wording] in
theorem tells_report (status : ChildStatus) : (s.tells (.report status)).filter Notice.isFailure = [] := by
  unfold Shared.tells
  cases s.parent <;> rfl

omit [Wording] in
theorem tells_failure : ((s.tells .failure).filter Notice.isFailure).length ≤ 1 := by
  unfold Shared.tells
  cases s.parent with
  | none => exact Nat.zero_le 1
  | some parent => exact le_refl 1

omit [Wording] in
theorem failures_told (h : (s.notices.filter Notice.isFailure).length ≤ if s.failureNoticed then 1 else 0) :
    ((s.notices ++ if s.failureNoticed then [] else s.tells .failure).filter Notice.isFailure).length ≤ 1 := by
  rw [List.filter_append, List.length_append]
  have htells := tells_failure (s := s)
  cases hnoticed : s.failureNoticed with
  | true =>
    rw [hnoticed] at h
    simpa using h
  | false =>
    rw [hnoticed] at h
    simp only [Bool.false_eq_true, if_false] at h ⊢
    omega

theorem Kept.step {b : Birth} (h : Kept b s) {hit : Option JobId} (heffect : Effect seed s s' hit) : Kept b s' := by
  cases heffect with
  | moved hp hadv =>
    refine ⟨hadv.parent.trans h.parent, fun _ => ?_, ?_, ?_⟩
    · obtain ⟨hparent, hreturns⟩ := h.mail hp
      exact ⟨hadv.moves.parent.trans hparent, hadv.moves.returns.trans hreturns⟩
    · intro hnoticed
      rcases h.noticed (hadv.noticed ▸ hnoticed) with hfailed | hdead
      · exact Or.inl (hadv.latch hfailed).1
      · exact Or.inr (hadv.poisoned.trans hdead)
    · rw [hadv.notices, hadv.noticed]
      exact h.failures
  | reported hp _ hreports =>
    have hfiled := hreports.filed
    have hold : s.failureNoticed = true → s'.journal.failed = true := by
      intro hnoticed
      rcases h.noticed hnoticed with hfailed | hdead
      · exact hfiled.latch hfailed
      · exact absurd (hp.symm.trans hdead) (by simp)
    refine ⟨hfiled.parent.trans h.parent, fun _ => ?_, ?_, ?_⟩
    · obtain ⟨hparent, hreturns⟩ := h.mail hp
      exact ⟨hfiled.mail.1.trans hparent, hfiled.mail.2.trans hreturns⟩
    · intro hnoticed
      cases hreports.outcome with
      | unowed _ _ hsame => exact Or.inl (hold (hsame ▸ hnoticed))
      | sent _ _ _ _ hsame => exact Or.inl (hold (hsame ▸ hnoticed))
      | failed _ hfailed _ _ => exact Or.inl hfailed
    · cases hreports.outcome with
      | unowed _ hnotices hsame =>
        rw [hnotices, hsame]
        exact h.failures
      | sent _ _ _ hnotices hsame =>
        rw [hnotices, hsame, List.filter_append, tells_report, List.append_nil]
        exact h.failures
      | failed _ _ htrue hnotices =>
        rw [hnotices, htrue]
        exact failures_told h.failures
  | dead _ hdead hnotices hnoticed =>
    refine ⟨hdead.parent.trans h.parent, fun hp => absurd (hdead.poisoned.symm.trans hp) (by simp),
      fun _ => Or.inr hdead.poisoned, ?_⟩
    rw [hnotices, hnoticed]
    exact h.failures
  | failure _ _ hdead htrue hnotices =>
    refine ⟨hdead.parent.trans h.parent, fun hp => absurd (hdead.poisoned.symm.trans hp) (by simp),
      fun _ => Or.inr hdead.poisoned, ?_⟩
    rw [hnotices, htrue]
    exact failures_told h.failures

omit [Wording] in
theorem born_kept (b : Birth) : Kept b b.world.shared where
  parent := rfl
  mail _ := ⟨rfl, rfl⟩
  noticed h := nomatch h
  failures := Nat.zero_le _

theorem run_kept {b : Birth} {w : World} (hsound : Sound seed w.shared) (h : Kept b w.shared) (events : List Event) :
    Kept b (w.run events).shared := by
  induction events generalizing w with
  | nil => exact h
  | cons event events ih =>
    have heffect := step_effect hsound event
    exact ih heffect.sound (h.step heffect)

/-! ## Teardown -/

theorem Effect.live {hit : Option JobId} (h : Effect seed s s' hit) : s'.live = true → s.live = true := by
  cases h with
  | moved _ hadv _ => exact hadv.live
  | reported _ _ hreports => exact hreports.filed.live
  | dead _ hdead => exact hdead.live
  | failure _ _ hdead => exact hdead.live

omit [Wording] in
theorem own_phase {α : Type} (w : World) (x : Txn α) (answer : α → Answer) : (w.own x answer).2.phase = w.phase := by
  unfold World.own
  split <;> rfl

omit [Wording] in
theorem endLife_ends (s : Shared) : (s.transact endLife).2.live = false := by
  unfold Shared.transact
  split <;> rfl

omit [Wording] in
theorem dropped_ends (s : Shared) : s.dropped.live = false := by
  unfold Shared.dropped
  split <;> rfl

/-- The owner leaves its loop only for the end of the life. -/
theorem step_phase (w : World) (event : Event) : (w.step event).2.phase = w.phase ∨ w.phase ≠ .attending ∨
    (w.step event).2.shared.live = false := by
  cases event with
  | begin ok => exact Or.inl (own_phase w _ _)
  | next pending expired ok => exact Or.inl (own_phase w _ _)
  | drain ok => exact Or.inl (own_phase w _ _)
  | ring label id =>
    left
    simp only [World.step]
    split <;> rfl
  | append ok =>
    left
    simp only [World.step]
    split <;> rfl
  | sync synced =>
    left
    simp only [World.step]
    split <;> rfl
  | panic left =>
    left
    simp only [World.step]
    split <;> rfl
  | teardown =>
    simp only [World.step]
    split
    · exact Or.inr (Or.inr (endLife_ends _))
    · exact Or.inl rfl
  | settle =>
    simp only [World.step]
    split
    · next hphase => exact Or.inr (Or.inl (by simp [hphase]))
    · exact Or.inl rfl
  | lastReport reason ok synced =>
    simp only [World.step]
    split
    · next hphase =>
        right
        left
        intro hattending
        simp [hattending] at hphase
    · exact Or.inl rfl
  | unwind =>
    simp only [World.step]
    split
    · exact Or.inr (Or.inr (dropped_ends _))
    · exact Or.inl rfl
  | drop =>
    simp only [World.step]
    split
    · exact Or.inr (Or.inr (dropped_ends _))
    · exact Or.inl rfl
  | _ => exact Or.inl rfl

/-- Once the owner has left its loop the life is over. -/
def World.Ended (w : World) : Prop := w.phase ≠ .attending → w.shared.live = false

theorem Ended.step {w : World} (h : w.Ended) (hsound : Sound seed w.shared) (event : Event) :
    (w.step event).2.Ended := by
  intro hphase
  have hlive := (step_effect hsound event).live
  have hstays : w.shared.live = false → (w.step event).2.shared.live = false := by
    intro hdead
    cases hafter : (w.step event).2.shared.live with
    | false => rfl
    | true => exact absurd (hdead.symm.trans (hlive hafter)) (by simp)
  rcases step_phase w event with hsame | hleft | hends
  · exact hstays (h (hsame ▸ hphase))
  · exact hstays (h hleft)
  · exact hends

theorem run_ended {w : World} (h : w.Ended) (hsound : Sound seed w.shared) (events : List Event) :
    (w.run events).Ended := by
  induction events generalizing w with
  | nil => exact h
  | cons event events ih => exact ih (Ended.step h hsound event) (step_effect hsound event).sound

/-- Teardown does not end over a debt. -/
theorem torndown_told {w : World} (hsound : Sound seed w.shared) (hdue : Due w.shared) {event : Event}
    (hbefore : w.phase ≠ .torndown) (hafter : (w.step event).2.phase = .torndown) :
    w.shared.notices.length < (w.step event).2.shared.notices.length := by
  cases event with
  | begin ok => exact absurd ((own_phase w _ _).symm.trans hafter) hbefore
  | next pending expired ok => exact absurd ((own_phase w _ _).symm.trans hafter) hbefore
  | drain ok => exact absurd ((own_phase w _ _).symm.trans hafter) hbefore
  | ring label id =>
    simp only [World.step] at hafter
    split at hafter <;> exact absurd hafter hbefore
  | append ok =>
    simp only [World.step] at hafter
    split at hafter <;> exact absurd hafter hbefore
  | sync synced =>
    simp only [World.step] at hafter
    split at hafter <;> exact absurd hafter hbefore
  | panic left =>
    simp only [World.step] at hafter
    split at hafter <;> exact absurd hafter hbefore
  | teardown =>
    simp only [World.step] at hafter
    split at hafter
    · cases hafter
    · exact absurd hafter hbefore
  | settle =>
    simp only [World.step] at hafter
    split at hafter
    · -- The debt shows in the mail, or the dead cell has a parent.
      rcases Bool.eq_false_or_eq_true w.shared.poisoned with hp | hp
      · rw [transact_poisoned Run.get hp] at hafter
        simp only [hdue.2.1, if_true] at hafter
        cases hafter
      · have hget : w.shared.transact (Run.get : Txn Shared) = (.ok w.shared, w.shared) := by
          unfold Shared.transact
          rw [if_neg (by simp [hp])]
          rfl
        rw [hget] at hafter
        simp only [hdue.owes hp, if_true] at hafter
        cases hafter
    · exact absurd hafter hbefore
  | lastReport reason ok synced =>
    simp only [World.step] at hafter ⊢
    split at hafter
    · next hphase =>
        rw [if_pos hphase]
        obtain ⟨_, hcases⟩ := reportAt_cases hsound (.failed reason) ok synced
        rcases hcases with ⟨hp, hreports⟩ | ⟨hp, _, _, hnotices⟩
        · exact hdue.reported hp hreports
        · have := tells_length hdue.2.1 .failure
          show _ < (w.shared.reportAt (.failed reason) ok synced).2.notices.length
          rw [hnotices, hdue.1, List.length_append]
          simp only [Bool.false_eq_true, if_false]
          omega
    · exact absurd hafter hbefore
  | unwind =>
    simp only [World.step] at hafter
    split at hafter
    · cases hafter
    · exact absurd hafter hbefore
  | drop =>
    simp only [World.step] at hafter
    split at hafter
    · next hphase =>
        simp only [Bool.and_eq_true, decide_eq_true_eq] at hphase
        exact absurd hphase.1 hbefore
    · exact absurd hafter hbefore
  | _ => exact absurd hafter hbefore

theorem due_told {w : World} (hsound : Sound seed w.shared) (hdue : Due w.shared) (hphase : w.phase ≠ .torndown)
    {events : List Event} (hdown : (w.run events).phase = .torndown) :
    w.shared.notices.length < (w.run events).shared.notices.length := by
  induction events generalizing w with
  | nil => exact absurd hdown hphase
  | cons event events ih =>
    have heffect := step_effect hsound event
    have hgrown := run_notices heffect.sound events
    rw [World.run_cons] at hdown ⊢
    rcases hdue.step heffect with htold | ⟨hdue', hsame⟩
    · exact lt_of_lt_of_le htold hgrown.length_le
    · by_cases hafter : (w.step event).2.phase = .torndown
      · exact lt_of_lt_of_le (torndown_told hsound hdue hphase hafter) hgrown.length_le
      · have := ih heffect.sound hdue' hafter hdown
        rwa [hsame] at this

theorem accepted_due {b : Birth} {parent : AgentId} (hparent : b.parent = some parent)
    (hreturns : b.folds.mail.returns = true) {w : World} (hsound : Sound seed w.shared) (hkept : Kept b w.shared)
    {item : Queued} {ok : Bool} {id : PostId} (hfrom : item.fromParent parent = true)
    (h : (w.step (.post item ok)).1 = .ok (.id id)) : Due (w.step (.post item ok)).2.shared := by
  obtain ⟨hpoisoned, haccepted⟩ := post_answered hsound h
  have heffect := step_effect hsound (.post item ok)
  have hkept' := hkept.step heffect
  have hends : Run.Ends (post item ok) w.shared (Quiet seed w.shared) := post_quiet (hsound hpoisoned) item
  obtain ⟨_, line, hadv, _⟩ := transact_of_ends hpoisoned hends fun _ _ hquiet => hquiet.1
  have hsame : (w.step (.post item ok)).2.shared = (w.shared.transact (post item ok)).2 := rfl
  rw [hsame] at hkept' haccepted ⊢
  have hp' := hadv.poisoned.trans hpoisoned
  obtain ⟨hmail, hret⟩ := hkept'.mail hp'
  have hnoticed : w.shared.failureNoticed = false := by
    cases hold : w.shared.failureNoticed with
    | false => rfl
    | true =>
      rcases hkept.noticed hold with hfailed | hdead
      · exact absurd (haccepted.failed.symm.trans hfailed) (by simp)
      · exact absurd (hpoisoned.symm.trans hdead) (by simp)
  refine ⟨hadv.noticed.trans hnoticed, by rw [hkept'.parent, hparent]; rfl, Or.inr ⟨hret.trans hreturns, Or.inr ?_⟩⟩
  have hkin : (w.shared.transact (post item ok)).2.mail.parent = some parent := by
    rw [hmail, ← b.addressed, hparent]
  refine ⟨id, item.posted, haccepted.pending, ?_, ?_⟩
  · unfold Queued.fromParent at hfrom
    split at hfrom
    · rfl
    · rfl
    · cases hfrom
  · unfold Mail.byParent
    rw [hkin]
    unfold Queued.fromParent at hfrom
    split at hfrom
    · simpa [Queued.posted] using hfrom
    · simpa [Queued.posted] using hfrom
    · cases hfrom

/-! ## What a notice answers -/

/-- A post of the parent's, on the log and not among those `taken`. -/
def Justified (taken : List PostId) (s : Shared) : Prop :=
  ∃ id post, s.mail.byParent post = true ∧ (id, Control.posted post) ∈ s.journal.records ∧ id ∉ taken

def Answers (taken : List PostId) (s : Shared) : Prop :=
  s.failureNoticed = true ∨ s.poisoned = true ∨ (s.mail.answering = true → Justified taken s)

omit [Wording] in
theorem Justified.mono {taken : List PostId} (h : Justified taken s) (hparent : s'.mail.parent = s.mail.parent)
    (hrecords : s.journal.records <+: s'.journal.records) : Justified taken s' := by
  obtain ⟨id, post, hby, hmem, hnew⟩ := h
  exact ⟨id, post, by rw [byParent_congr hparent]; exact hby, hrecords.subset hmem, hnew⟩

omit [Wording] in
theorem takings_subset {past records : List (ℕ × Control)} (h : past <+: records) :
    ∀ id ∈ takings past, id ∈ takings records := by
  intro id hid
  obtain ⟨more, rfl⟩ := h
  unfold takings at hid ⊢
  rw [List.flatMap_append]
  exact List.mem_append_left _ hid

theorem justified_of_pending {started : Started} (h : s.Replays (Folds.seed started)) {past : List (ℕ × Control)}
    (hpast : past <+: s.journal.records) {id : PostId} {post : Post} (hpost : s.mail.post id = some post)
    (hby : s.mail.byParent post = true) : Justified (takings past) s := by
  have haccounted := replay_accounted (seed_accounted started) h.replay
  rw [List.nil_append] at haccounted
  obtain ⟨hmem, hnew⟩ := haccounted.pending hpost
  exact ⟨id, post, hby, hmem, fun htaken => hnew (takings_subset hpast id htaken)⟩

theorem Answers.step {started : Started} {past : List (ℕ × Control)} (h : Answers (takings past) s)
    (hsound : Sound (Folds.seed started) s) (hpast : past <+: s.journal.records) {hit : Option JobId}
    (heffect : Effect (Folds.seed started) s s' hit) : Answers (takings past) s' := by
  have hrecords := heffect.records
  cases heffect with
  | moved hp hadv =>
    rcases h with hnoticed | hdead | hanswers
    · exact Or.inl (hadv.noticed.trans hnoticed)
    · exact Or.inr (Or.inl (hadv.poisoned.trans hdead))
    · refine Or.inr (Or.inr fun hanswering => ?_)
      rcases hadv.moves.answered hanswering with hold | ⟨id, post, hpost, hby⟩
      · exact (hanswers hold).mono hadv.moves.parent hrecords
      · exact (justified_of_pending (hsound hp) hpast hpost hby).mono hadv.moves.parent hrecords
  | reported hp _ hreports =>
    have hfiled := hreports.filed
    rcases h with hnoticed | hdead | hanswers
    · left
      cases hreports.outcome with
      | unowed _ _ hsame => exact hsame.trans hnoticed
      | sent _ _ _ _ hsame => exact hsame.trans hnoticed
      | failed _ _ htrue _ => exact htrue
    · exact Or.inr (Or.inl (hfiled.poisoned.trans hdead))
    · exact Or.inr (Or.inr fun hanswering =>
        (hanswers (hfiled.answered hanswering)).mono hfiled.mail.1 hrecords)
  | dead _ hdead => exact Or.inr (Or.inl hdead.poisoned)
  | failure _ _ hdead => exact Or.inr (Or.inl hdead.poisoned)

theorem answers_of_told {hit : Option JobId} (heffect : Effect seed s s' hit)
    (htold : s.notices.length < s'.notices.length) (taken : List PostId) : Answers taken s' := by
  cases heffect with
  | moved _ hadv => exact absurd htold (by rw [hadv.notices]; exact lt_irrefl _)
  | reported _ _ hreports =>
    cases hreports.outcome with
    | unowed _ hnotices _ => exact absurd htold (by rw [hnotices]; exact lt_irrefl _)
    | sent _ _ hanswered _ _ =>
      exact Or.inr (Or.inr fun hanswering => absurd (hanswered.symm.trans hanswering) (by simp))
    | failed _ _ htrue _ => exact Or.inl htrue
  | dead _ hdead => exact Or.inr (Or.inl hdead.poisoned)
  | failure _ _ hdead => exact Or.inr (Or.inl hdead.poisoned)

/-- What a live cell sends is justified. -/
theorem told_justified {b : Birth} {past : List (ℕ × Control)} (h : Answers (takings past) s) (hkept : Kept b s)
    (hsound : Sound b.seed s) (hpast : past <+: s.journal.records) (hp : s.poisoned = false) {hit : Option JobId}
    (heffect : Effect b.seed s s' hit) (htold : s.notices.length < s'.notices.length) :
    Justified (takings past) s := by
  have howes : s.mail.owes = true ∧ s.failureNoticed = false := by
    cases heffect with
    | moved _ hadv => exact absurd htold (by rw [hadv.notices]; exact lt_irrefl _)
    | dead _ _ hnotices => exact absurd htold (by rw [hnotices]; exact lt_irrefl _)
    | failure _ hdead => exact absurd (hp.symm.trans hdead) (by simp)
    | reported _ _ hreports =>
      cases hreports.outcome with
      | unowed _ hnotices _ => exact absurd htold (by rw [hnotices]; exact lt_irrefl _)
      | sent howes hgood _ _ _ =>
        refine ⟨howes, ?_⟩
        cases hnoticed : s.failureNoticed with
        | false => rfl
        | true =>
          rcases hkept.noticed hnoticed with hfailed | hdead
          · exact absurd (hgood.symm.trans hfailed) (by simp)
          · exact absurd (hp.symm.trans hdead) (by simp)
      | failed howes _ _ hnotices =>
        refine ⟨howes, ?_⟩
        cases hnoticed : s.failureNoticed with
        | false => rfl
        | true =>
          rw [hnotices, hnoticed] at htold
          simp at htold
  unfold Mail.owes at howes
  simp only [Bool.and_eq_true, Bool.or_eq_true, List.any_eq_true] at howes
  obtain ⟨⟨_, hdebt⟩, hnoticed⟩ := howes
  rcases hdebt with hanswering | ⟨e, he, hby⟩
  · rcases h with hold | hdead | hanswers
    · exact absurd (hnoticed.symm.trans hold) (by simp)
    · exact absurd (hp.symm.trans hdead) (by simp)
    · exact hanswers hanswering
  · exact justified_of_pending (hsound hp) hpast (SortedMap.get_eq_some.mpr he) hby

theorem run_answers {started : Started} {past : List (ℕ × Control)} {w : World} (h : Answers (takings past) w.shared)
    (hsound : Sound (Folds.seed started) w.shared) (hpast : past <+: w.shared.journal.records) (events : List Event) :
    Answers (takings past) (w.run events).shared := by
  induction events generalizing w with
  | nil => exact h
  | cons event events ih =>
    have heffect := step_effect hsound event
    exact ih (h.step hsound hpast heffect) heffect.sound (hpast.trans heffect.records)

/-- Jobs and debts obey their protocol in every run. -/
theorem jobs_and_debts (b : Birth) :
    (∀ events, Alternates none (b.world.run events).shared.journal.records ∧
      (∀ commit job stopped, (commit, Control.jobSettled job stopped) ∈
        (b.world.run events).shared.journal.records.drop b.records.length →
        (stopped = true ↔ job ∈ b.world.hits events)) ∧
      ((b.world.run events).shared.notices.filter Notice.isFailure).length ≤ 1) ∧
    (∀ parent, b.parent = some parent → b.folds.mail.returns = true → ∀ earlier item ok id later,
      item.fromParent parent = true → ((b.world.run earlier).step (.post item ok)).1 = .ok (.id id) →
      (b.world.run (earlier ++ .post item ok :: later)).phase = .torndown →
      ((b.world.run earlier).step (.post item ok)).2.shared.notices.length <
        (b.world.run (earlier ++ .post item ok :: later)).shared.notices.length) ∧
    (∀ earlier first between last,
      (b.world.run earlier).shared.notices.length < (b.world.run (earlier ++ [first])).shared.notices.length →
      (b.world.run (earlier ++ first :: between)).shared.poisoned = false →
      (b.world.run (earlier ++ first :: between)).shared.notices.length <
        (b.world.run (earlier ++ first :: between ++ [last])).shared.notices.length →
      Justified (takings (b.world.run (earlier ++ [first])).shared.journal.records)
        (b.world.run (earlier ++ first :: between)).shared) := by
  refine ⟨fun events => ⟨?_, ?_, ?_⟩, ?_, ?_⟩
  · obtain ⟨folds, hreplay⟩ := run_replays b.sound ⟨_, b.replays⟩ events
    exact replay_alternates hreplay
  · intro commit job stopped hmem
    obtain ⟨more, hrecords, hjudged⟩ := run_judged b.sound (born_judged b) events
    have hsince : (b.world.run events).shared.journal.records.drop b.records.length = more := by
      rw [hrecords]
      exact List.drop_left
    rw [hsince] at hmem
    rw [List.nil_append, List.nil_append] at hjudged
    exact hjudged.settled commit job stopped hmem
  · have hkept := run_kept b.sound (born_kept b) events
    refine hkept.failures.trans ?_
    split <;> omega
  · intro parent hparent hreturns earlier item ok id later hfrom hanswer hdown
    have hsound := run_sound b.sound earlier
    have hkept := run_kept b.sound (born_kept b) earlier
    have hdue := accepted_due hparent hreturns hsound hkept hfrom hanswer
    have hended : (b.world.run earlier).Ended := by
      apply run_ended _ b.sound
      exact fun hphase => absurd rfl hphase
    have hphase : ((b.world.run earlier).step (.post item ok)).2.phase ≠ .torndown := by
      have hlive := (post_answered hsound hanswer).2.live
      show (b.world.run earlier).phase ≠ .torndown
      intro hdown
      have := hended (by rw [hdown]; simp)
      exact absurd (hlive.symm.trans this) (by simp)
    rw [World.run_append, World.run_cons] at hdown ⊢
    exact due_told (step_effect hsound _).sound hdue hphase hdown
  · intro earlier first between last hfirst hlive hlast
    have hsound := run_sound b.sound earlier
    have heffect := step_effect hsound first
    have hone : b.world.run (earlier ++ [first]) = ((b.world.run earlier).step first).2 := by
      rw [World.run_append]
      rfl
    rw [World.run_append _ earlier (first :: between), World.run_cons] at hlive ⊢
    rw [World.run_append _ (earlier ++ first :: between) [last], World.run_append _ earlier (first :: between),
      World.run_cons] at hlast
    rw [hone] at hfirst ⊢
    have hanswers := answers_of_told heffect hfirst (takings ((b.world.run earlier).step first).2.shared.journal.records)
    have hlater := run_answers hanswers heffect.sound List.prefix_rfl between
    have hsound' := run_sound heffect.sound between
    have hkept' := run_kept heffect.sound ((run_kept b.sound (born_kept b) earlier).step heffect) between
    exact told_justified hlater hkept' hsound' (run_records heffect.sound between) hlive
      (step_effect hsound' last) hlast

end Debts

/-- Teardown tells of an errand that was never taken, though its append fails. -/
theorem jobs_and_debts_untaken : (@World.run plain helper.world [.post errand true]).shared.notices.length <
    (@World.run plain helper.world [.post errand true, .teardown, .settle,
      .lastReport "ended" false true]).shared.notices.length :=
  (@jobs_and_debts plain helper).2.1 1 rfl rfl [] errand true 2 [.teardown, .settle, .lastReport "ended" false true]
    rfl rfl rfl

/-- Not every notice answers a post untaken at the one before: the errand is taken and
answered, then a transaction panics, and the teardown of the dead cell tells the parent
once more. -/
theorem dead_cell_tells_again : ¬ ∀ (b : Birth) (earlier : List Event) (first : Event) (between : List Event)
    (last : Event),
    (@World.run plain b.world earlier).shared.notices.length <
      (@World.run plain b.world (earlier ++ [first])).shared.notices.length →
    (@World.run plain b.world (earlier ++ first :: between)).shared.notices.length =
      (@World.run plain b.world (earlier ++ [first])).shared.notices.length →
    (@World.run plain b.world (earlier ++ first :: between)).shared.notices.length <
      (@World.run plain b.world (earlier ++ first :: between ++ [last])).shared.notices.length →
    Justified (takings (@World.run plain b.world (earlier ++ [first])).shared.journal.records)
      (@World.run plain b.world (earlier ++ first :: between)).shared := by
  intro h
  obtain ⟨id, post, _, hmem, hnew⟩ := h helper [.post errand true, .next false false true]
    (.report .stopped true true) [.panic helper.world.shared.cell, .teardown, .settle]
    (.lastReport "gone" true true) (by decide) (by decide) (by decide)
  have hid : id = 2 := by
    rcases List.mem_cons.mp hmem with he | hmem
    · exact congrArg Prod.fst he
    · rcases List.mem_cons.mp hmem with he | hmem
      · exact nomatch congrArg Prod.snd he
      · rcases List.mem_cons.mp hmem with he | hmem
        · exact nomatch congrArg Prod.snd he
        · cases hmem
  subst hid
  exact hnew List.mem_cons_self

end Ral.Mailbox
