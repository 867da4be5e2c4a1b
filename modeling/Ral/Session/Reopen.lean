import Ral.Mailbox.Quiet
import Ral.Session.Live

/-! # Reopening a root log

`record.jsonl` as every fold of it reads it: the control records step the mail, the schedules and
the model, the transcript records step the context. A reopen folds all of them, quiesces a context
caught mid-turn and then writes one line that settles what was still owed.
-/

namespace Ral.Session
open Ral.Record (Recorded Locus NonEmpty Commit Range Sum)
open Ral.Mailbox (Control Folds Misfit Selected)

/-! ## The file -/

inductive LogRecord
  | control (control : Control)
  | transcript (transcript : Transcript)
  /-- A display or a forensic record, which no fold here steps. -/
  | aside

/-- Its whole lines, one after another. -/
abbrev LogFile : Type := List (Recorded LogRecord)

def LogRecord.filed (r : Recorded Transcript) : Recorded LogRecord := ⟨r.locus, .transcript r.value⟩

def LogRecord.control? : LogRecord → Option Control
  | .control c => some c
  | .transcript _ => none
  | .aside => none

def LogRecord.transcript? (r : Recorded LogRecord) : Option (Recorded Transcript) :=
  match r.value with
  | .transcript p => some ⟨r.locus, p⟩
  | .control _ => none
  | .aside => none

namespace LogFile

def transcripts (file : LogFile) : List (Recorded Transcript) := List.filterMap LogRecord.transcript? file

def grown (file : LogFile) (written : List (Recorded Transcript)) : LogFile :=
  file ++ (written.drop file.transcripts.length).map LogRecord.filed

end LogFile

/-! ## Its folds -/

/-- Why a file is no log to reopen. -/
inductive Unread
  | headless
  | child
  | control (misfit : Misfit)
  | context (refusal : Refusal)

/-- Every fold of a root's log. -/
structure Root where
  context : Context
  folds : Folds

def stepControl (folds : Folds) (r : Recorded LogRecord) : Except Misfit Folds :=
  match r.value with
  | .control control => folds.step r.locus.seq.commit control
  | .transcript _ => .ok folds
  | .aside => .ok folds

variable [Host]

def stepContext (context : Context) (r : Recorded LogRecord) : Except Refusal Context :=
  match r.value with
  | .control _ => .ok context
  | .transcript p => context.stepTranscript ⟨r.locus, p⟩
  | .aside => .ok context

def Root.step (root : Root) (r : Recorded LogRecord) : Except Unread Root :=
  match stepControl root.folds r with
  | .error misfit => .error (.control misfit)
  | .ok folds =>
    match stepContext root.context r with
    | .error refusal => .error (.context refusal)
    | .ok context => .ok ⟨context, folds⟩

def resume (id : AgentId) (file : LogFile) : Except Unread Root :=
  match file with
  | [] => .error .headless
  | head :: records =>
    match head.value with
    | .control (.sessionStarted started) =>
      if started.parent.isSome then .error .child
      else records.foldlM Root.step ⟨.new id, .seed started⟩
    | _ => .error .headless

/-! ## The reopen -/

abbrev LineWriter : Type := LogFile → NonEmpty LogRecord → Except String (ℕ × Range × Sum)

/-- The line, appended. -/
def placed (at' : ℕ × Range × Sum) (records : NonEmpty LogRecord) : LogFile :=
  (Commit.new at'.1 at'.2.1 at'.2.2 records).records.toList

def LineWriter.writer (w : LineWriter) (file : LogFile) : Writer := fun written p =>
  (w (file.grown written) ⟨.transcript p, []⟩).map fun at' => ⟨⟨at'.1, 0⟩, at'.2.1, at'.2.2⟩

structure Reopened where
  log : AgentLog
  folds : Folds
  file : LogFile

/-- How a reopen ended, and the file it left. -/
inductive Ending
  | opened (reopened : Reopened)
  | unavailable (why : String) (file : LogFile)
  | panicked (message : String) (file : LogFile)

def resumeLine (folds : Folds) (selected : Selected) (returns : Bool) : NonEmpty Control :=
  ⟨.sessionResumed selected returns,
    ((Mailbox.collect (folds.mail.pending.entries.map Prod.fst)).map Control.withdrawn).toList ++
      (folds.mail.job.map fun job => Control.jobSettled job false).toList ++
      folds.schedules.entries.map fun e => Control.unscheduled e.1⟩

/-- A note of what was withdrawn. -/
def resumeNotes (folds : Folds) : List LogRecord :=
  if folds.mail.pending.entries = [] then [] else [.aside]

def LineWriter.reconcile (w : LineWriter) (file : LogFile) (log : AgentLog) (folds : Folds)
    (selected : Selected) (returns : Bool) (system : String) : Ending :=
  let line := resumeLine folds selected returns
  let records : NonEmpty LogRecord := ⟨.control line.first, line.rest.map .control ++ resumeNotes folds⟩
  match w file records with
  | .error why => .unavailable why file
  | .ok at' =>
    let file := file ++ placed at' records
    match (placed at' records).foldlM stepControl folds with
    | .error _ => .panicked "control fold refused a live record" file
    | .ok folds =>
      if system ≠ log.context.system then
        match log.recordTranscript (w.writer file) (.system system) with
        | (.committed, log) => .opened ⟨log, folds, file.grown log.written⟩
        | (.panicked message, log) => .panicked message (file.grown log.written)
        | (.refused why, log) => .unavailable why (file.grown log.written)
        | (.unavailable why, log) => .unavailable why (file.grown log.written)
      else .opened ⟨log, folds, file⟩

def LineWriter.reopen (w : LineWriter) (id : AgentId) (file : LogFile) (selected : Selected) (returns : Bool)
    (system : String) : Except Unread Ending :=
  (resume id file).map fun root =>
    let log : AgentLog := ⟨id, root.context, file.transcripts, none⟩
    match if log.context.isReady then (Outcome.committed, log)
        else log.quiesce (w.writer file) .aborted with
    | (.committed, log) => w.reconcile (file.grown log.written) log root.folds selected returns system
    | (.panicked message, log) => .panicked message (file.grown log.written)
    | (.refused why, log) => .unavailable why (file.grown log.written)
    | (.unavailable why, log) => .unavailable why (file.grown log.written)

/-! ## Folding a file -/

omit [Host] in
theorem bind_of_ok {ε α β : Type} {x : Except ε α} {a : α} (h : x = .ok a) (f : α → Except ε β) :
    (x >>= f) = f a := by
  rw [h]
  rfl

theorem resume_append {id : AgentId} {file : LogFile} {root : Root} (h : resume id file = .ok root)
    (records : LogFile) : resume id (file ++ records) = records.foldlM Root.step root := by
  cases file with
  | nil => cases h
  | cons head rest =>
    unfold resume at h ⊢
    rw [List.cons_append]
    dsimp only at h ⊢
    split at h
    · next started =>
      split at h
      · cases h
      · next free =>
        rw [if_neg free, List.foldlM_append]
        exact bind_of_ok h _
    · cases h

theorem step_filed {root : Root} {r : Recorded Transcript} {context : Context}
    (h : root.context.stepTranscript r = .ok context) :
    root.step (LogRecord.filed r) = .ok ⟨context, root.folds⟩ := by
  have both : root.step (LogRecord.filed r) = (match root.context.stepTranscript r with
      | .error refusal => .error (.context refusal)
      | .ok context => .ok ⟨context, root.folds⟩) := rfl
  rw [both, h]

theorem steps_filed {records : List (Recorded Transcript)} {root : Root} {context : Context}
    (h : root.context.replay records = .ok context) :
    (records.map LogRecord.filed).foldlM Root.step root = .ok ⟨context, root.folds⟩ := by
  induction records generalizing root with
  | nil =>
    cases h
    rfl
  | cons r records ih =>
    obtain ⟨next, first, rest⟩ := Context.replay_cons.mp h
    rw [List.map_cons, List.foldlM_cons, bind_of_ok (step_filed first)]
    exact ih rest

theorem Root.step_eq_ok {root root' : Root} {r : Recorded LogRecord} (h : root.step r = .ok root') :
    stepControl root.folds r = .ok root'.folds ∧ stepContext root.context r = .ok root'.context := by
  unfold Root.step at h
  split at h
  · cases h
  · next folds hfolds =>
    split at h
    · cases h
    · next context hcontext =>
      cases h
      exact ⟨hfolds, hcontext⟩

theorem replay_transcripts {records : LogFile} {root root' : Root} (h : records.foldlM Root.step root = .ok root') :
    root.context.replay records.transcripts = .ok root'.context := by
  induction records generalizing root with
  | nil =>
    cases h
    rfl
  | cons r records ih =>
    obtain ⟨mid, first, rest⟩ := Fallible.foldlM_cons_eq_ok.mp h
    have hcontext := (Root.step_eq_ok first).2
    have hrest := ih rest
    obtain ⟨locus, value⟩ := r
    cases value with
    | transcript p => exact Context.replay_cons.mpr ⟨mid.context, hcontext, hrest⟩
    | control control =>
      have same : root.context = mid.context := Except.ok.inj hcontext
      rw [same]
      exact hrest
    | aside =>
      have same : root.context = mid.context := Except.ok.inj hcontext
      rw [same]
      exact hrest

theorem folded_of_resume {id : AgentId} {file : LogFile} {root : Root} (h : resume id file = .ok root) :
    AgentLog.Folded ⟨id, root.context, file.transcripts, none⟩ := by
  cases file with
  | nil => cases h
  | cons head rest =>
    unfold resume at h
    dsimp only at h
    split at h
    · next started hhead =>
      split at h
      · cases h
      · have whole : LogFile.transcripts (head :: rest) = LogFile.transcripts rest := by
          unfold LogFile.transcripts
          rw [List.filterMap_cons_none]
          unfold LogRecord.transcript?
          rw [hhead]
        show (Context.new id).replay (LogFile.transcripts (head :: rest)) = _
        rw [whole]
        exact replay_transcripts h
    · cases h

omit [Host] in
theorem transcripts_append (file more : LogFile) :
    LogFile.transcripts (file ++ more) = LogFile.transcripts file ++ LogFile.transcripts more :=
  List.filterMap_append

omit [Host] in
theorem grown_append (file : LogFile) (records : List (Recorded Transcript)) :
    file.grown (file.transcripts ++ records) = file ++ records.map LogRecord.filed := by
  unfold LogFile.grown
  rw [List.drop_left]

/-! ## The resume line -/

omit [Host] in
/-- One line steps the control folds by its control records, all of one commit. -/
theorem steps_line {records : LogFile} {commit : ℕ} (number : ∀ r ∈ records, r.locus.seq.commit = commit)
    (folds : Folds) : records.foldlM stepControl folds =
      folds.stepLine commit ((records.map Recorded.value).filterMap LogRecord.control?) := by
  induction records generalizing folds with
  | nil => rfl
  | cons r records ih =>
    have rest := ih fun r' hr' => number r' (List.mem_cons_of_mem _ hr')
    have own : r.locus.seq.commit = commit := number r List.mem_cons_self
    obtain ⟨locus, value⟩ := r
    cases value with
    | control control =>
      show (folds.step locus.seq.commit control >>= fun folds => records.foldlM stepControl folds) = _
      have own : locus.seq.commit = commit := own
      rw [own]
      cases hstep : folds.step commit control with
      | error misfit =>
        show _ = (folds.step commit control >>= _)
        rw [hstep]
        rfl
      | ok folds' => exact (rest folds').trans (Folds.stepLine_cons hstep _).symm
    | transcript p => exact rest folds
    | aside => exact rest folds

omit [Host] in
theorem values_placed (at' : ℕ × Range × Sum) (records : NonEmpty LogRecord) :
    (placed at' records).map Recorded.value = records.toList := by
  unfold placed Commit.new NonEmpty.toList
  rw [List.map_cons, List.map_map]
  congr 1
  exact List.zipIdx_map_fst 0 records.rest

omit [Host] in
theorem number_placed {at' : ℕ × Range × Sum} {records : NonEmpty LogRecord} {r : Recorded LogRecord}
    (h : r ∈ placed at' records) : r.locus.seq.commit = at'.1 := by
  rcases List.mem_cons.mp h with rfl | h
  · rfl
  · obtain ⟨x, -, rfl⟩ := List.mem_map.mp h
    rfl

omit [Host] in
theorem controls_line (line : List Control) (notes : List LogRecord) (asides : ∀ r ∈ notes, r = .aside) :
    (line.map LogRecord.control ++ notes).filterMap LogRecord.control? = line := by
  have none : notes.filterMap LogRecord.control? = [] := by
    apply List.filterMap_eq_nil_iff.mpr
    intro r hr
    rw [asides r hr]
    rfl
  rw [List.filterMap_append, none, List.append_nil, List.filterMap_map]
  exact List.filterMap_some

omit [Host] in
theorem resumeNotes_asides (folds : Folds) : ∀ r ∈ resumeNotes folds, r = .aside := by
  intro r hr
  unfold resumeNotes at hr
  split at hr
  · cases hr
  · exact List.mem_singleton.mp hr

/-- Nothing is owed: no post pending, no job open, no wakeup booked. -/
def Settled (folds : Folds) : Prop :=
  folds.mail.pending = SortedMap.empty ∧ folds.mail.job = none ∧ folds.schedules = SortedMap.empty

omit [Host] in
theorem erased_all (pending : SortedMap Mailbox.PostId Mailbox.Post) :
    (pending.entries.map Prod.fst).foldl SortedMap.erase pending = SortedMap.empty := by
  apply SortedMap.ext
  rw [Mailbox.entries_foldl_erase]
  show pending.entries.filter _ = []
  apply List.filter_eq_nil_iff.mpr
  intro e he
  simpa using ⟨e.2, he⟩

omit [Host] in
theorem withdraws (folds : Folds) (commit : ℕ) : ∃ mail : Mailbox.Mail,
    folds.stepLine commit ((Mailbox.collect (folds.mail.pending.entries.map Prod.fst)).map Control.withdrawn).toList =
      .ok { folds with mail } ∧ mail.pending = SortedMap.empty ∧ mail.job = folds.mail.job := by
  cases hposts : Mailbox.collect (folds.mail.pending.entries.map Prod.fst) with
  | none =>
    refine ⟨folds.mail, rfl, SortedMap.ext ?_, rfl⟩
    cases hentries : folds.mail.pending.entries with
    | nil => rfl
    | cons e rest =>
      rw [hentries] at hposts
      cases hposts
  | some posts =>
    have all := Mailbox.toList_of_collect hposts
    have nodup : posts.toList.Nodup := by
      rw [all]
      exact folds.mail.pending.ascending.imp ne_of_lt |> List.pairwise_map.mpr
    have pending : ∀ id ∈ posts.toList, (folds.mail.post id).isSome := by
      intro id hid
      rw [all] at hid
      exact SortedMap.get_isSome.mpr hid
    refine ⟨_, Folds.stepLine_one (Folds.step_withdrawn nodup pending commit), ?_, rfl⟩
    show posts.toList.foldl SortedMap.erase folds.mail.pending = _
    rw [all]
    exact erased_all _

omit [Host] in
theorem settles_job (folds : Folds) (commit : ℕ) :
    folds.stepLine commit (folds.mail.job.map fun job => Control.jobSettled job false).toList =
      .ok { folds with mail := { folds.mail with job := none } } := by
  cases hjob : folds.mail.job with
  | none =>
    have same : folds.mail = { folds.mail with job := none } := by rw [← hjob]
    show Except.ok folds = _
    rw [← same]
  | some job => exact Folds.stepLine_one (Folds.step_jobSettled hjob commit false)

omit [Host] in
theorem resumeLine_settles (folds : Folds) (selected : Selected) (returns : Bool) (commit : ℕ) :
    ∃ folds', folds.stepLine commit (resumeLine folds selected returns).toList = .ok folds' ∧ Settled folds' := by
  have resumed : ∃ folds₁ : Folds, folds.step commit (.sessionResumed selected returns) = .ok folds₁ ∧
      folds₁.mail.pending = folds.mail.pending ∧ folds₁.mail.job = folds.mail.job ∧
      folds₁.schedules = folds.schedules := ⟨_, Folds.step_of nofun rfl rfl rfl, rfl, rfl, rfl⟩
  obtain ⟨folds₁, hresumed, hpending, hjob, hschedules⟩ := resumed
  obtain ⟨mail, hwithdrawn, hnone, hopen⟩ := withdraws folds₁ commit
  have hsettled := settles_job { folds₁ with mail } commit
  have hretired := Folds.stepLine_retired { folds₁ with mail := { mail with job := none } } commit
  refine ⟨{ folds₁ with mail := { mail with job := none }, schedules := SortedMap.empty }, ?_, hnone, rfl, rfl⟩
  · unfold resumeLine NonEmpty.toList
    rw [Folds.stepLine_cons hresumed, ← hpending, ← hjob, ← hschedules, List.append_assoc,
      Folds.stepLine_append hwithdrawn, ← hopen, Folds.stepLine_append hsettled]
    exact hretired

omit [Host] in
theorem transcripts_eq_nil {records : LogFile} (h : ∀ r ∈ records, ∀ p, r.value ≠ .transcript p) :
    records.transcripts = [] := by
  apply List.filterMap_eq_nil_iff.mpr
  intro r hr
  unfold LogRecord.transcript?
  cases hvalue : r.value with
  | transcript p => exact absurd hvalue (h r hr p)
  | control c => rfl
  | aside => rfl

theorem steps_controls {records : LogFile} {root : Root} {folds : Folds} (untold : records.transcripts = [])
    (h : records.foldlM stepControl root.folds = .ok folds) :
    records.foldlM Root.step root = .ok ⟨root.context, folds⟩ := by
  induction records generalizing root with
  | nil =>
    cases h
    rfl
  | cons r records ih =>
    obtain ⟨mid, first, rest⟩ := Fallible.foldlM_cons_eq_ok.mp h
    have unfiled : LogRecord.transcript? r = none := List.filterMap_eq_nil_iff.mp untold r List.mem_cons_self
    have untold' : LogFile.transcripts records = [] :=
      List.filterMap_eq_nil_iff.mpr fun r' hr' =>
        List.filterMap_eq_nil_iff.mp untold r' (List.mem_cons_of_mem _ hr')
    have still : stepContext root.context r = .ok root.context := by
      unfold LogRecord.transcript? at unfiled
      unfold stepContext
      cases hvalue : r.value with
      | transcript p => simp [hvalue] at unfiled
      | control c => rfl
      | aside => rfl
    have step : root.step r = .ok ⟨root.context, mid⟩ := by
      unfold Root.step
      rw [first]
      dsimp only
      rw [still]
    rw [List.foldlM_cons, bind_of_ok step]
    exact ih untold' rest

/-! ## One record -/

/-- The log beside the file it writes. -/
structure Tracks (id : AgentId) (file : LogFile) (log : AgentLog) (folds : Folds) : Prop where
  folded : resume id file = .ok ⟨log.context, folds⟩
  written : log.written = file.transcripts
  whole : log.failure = none

omit [Host] in
theorem grown_self {file : LogFile} {log : AgentLog} (written : log.written = file.transcripts) :
    file.grown log.written = file := by
  have append := grown_append file []
  rw [List.append_nil] at append
  rw [written, append]
  exact List.append_nil file

/-- How one record that is no link goes. -/
inductive Filing (w : LineWriter) (id : AgentId) (file : LogFile) (log : AgentLog) (folds : Folds) (p : Transcript) :
    Outcome × AgentLog → Prop
  | lost {why : String} {log' : AgentLog} : w (file.grown log.written) ⟨.transcript p, []⟩ = .error why →
      file.grown log'.written = file → Filing w id file log folds p (.unavailable why, log')
  | filed {locus : Locus} {log' : AgentLog} : log.Wrote p log' locus →
      Tracks id (file.grown log'.written) log' folds → Filing w id file log folds p (.committed, log')
  | foreign {message : String} {log' : AgentLog} : log.context.judge (log.context.len + 1) p ≠ none →
      Filing w id file log folds p (.panicked message, log')

variable {w : LineWriter} {id : AgentId} {file : LogFile} {log : AgentLog} {folds : Folds}

theorem Tracks.recorded (h : Tracks id file log folds) {p : Transcript}
    (notLink : ∀ turns evictions, p ≠ .inherited turns evictions) :
    Filing w id file log folds p (log.recordTranscript (w.writer file) p) := by
  unfold AgentLog.recordTranscript AgentLog.emit
  rw [h.whole]
  dsimp only
  unfold LineWriter.writer
  cases hw : w (file.grown log.written) ⟨.transcript p, []⟩ with
  | error why => exact .lost hw (grown_self h.written)
  | ok at' =>
    dsimp only [Except.map]
    generalize hlocus : (⟨⟨at'.1, 0⟩, at'.2.1, at'.2.2⟩ : Locus) = locus
    cases hj : log.context.judge (log.context.len + 1) p with
    | none =>
      obtain ⟨context, hstep, -⟩ := @Context.step_judged _ log.context ⟨locus, p⟩ hj notLink
      rw [hstep]
      refine .filed ⟨rfl, rfl, hstep⟩ ?_
      have grown : file.grown (log.written ++ [⟨locus, p⟩]) = file ++ [⟨locus, .transcript p⟩] := by
        rw [h.written]
        exact grown_append file [⟨locus, p⟩]
      refine ⟨?_, ?_, rfl⟩
      · show resume id (file.grown (log.written ++ [⟨locus, p⟩])) = _
        rw [grown, resume_append h.folded, List.foldlM_cons]
        have taken : (⟨log.context, folds⟩ : Root).context.stepTranscript ⟨locus, p⟩ = .ok context := hstep
        exact bind_of_ok (step_filed taken) _
      · show log.written ++ [⟨locus, p⟩] = (file.grown (log.written ++ [⟨locus, p⟩])).transcripts
        rw [grown, transcripts_append, h.written]
        rfl
    | some reason =>
      have hstep : log.context.stepTranscript ⟨locus, p⟩ = .error (.foreign p reason) := by
        unfold Context.stepTranscript
        rw [hj]
      rw [hstep]
      exact .foreign (by simp [hj])

/-! ## Every accepted log -/

/-- What a reopen may leave: a log owed nothing and ready for a prompt, or a file that reopens as
the one it found. -/
def Reconciled (w : LineWriter) (id : AgentId) : Ending → Prop
  | .opened r => Settled r.folds ∧ r.log.context.isReady ∧ resume id r.file = .ok ⟨r.log.context, r.folds⟩
  | .unavailable why file => (∃ written records, w written records = .error why) ∧
      ∃ root, resume id file = .ok root ∧ root.context.state.pending.Nodup
  | .panicked _ _ => False

omit [Host] in
theorem pending_of_isReady {context : Context} (ready : context.isReady) : context.state.pending.Nodup := by
  rw [Context.pending_of_ready ready]
  exact List.nodup_nil

theorem state_of_system {log' : AgentLog} {system : String} {locus : Locus}
    (h : log.Wrote (.system system) log' locus) : log'.context.state = log.context.state := by
  have hchange := Context.change_of_step h.step
  generalize log'.context = c at hchange
  cases hchange with
  | system => rfl
  | withdraw edit => rcases edit with h | ⟨h, -⟩ <;> cases h
  | opened opens => cases opens
  | extended adds => cases adds
  | adrift legal adds => cases adds

/-- From a ready context the resume line and the prompt are taken. -/
theorem Tracks.reconciled (h : Tracks id file log folds) (ready : log.context.isReady) (selected : Selected)
    (returns : Bool) (system : String) :
    Reconciled w id (w.reconcile file log folds selected returns system) := by
  unfold LineWriter.reconcile
  dsimp only
  generalize hrecords : (⟨.control (resumeLine folds selected returns).first,
    (resumeLine folds selected returns).rest.map .control ++ resumeNotes folds⟩ : NonEmpty LogRecord) = records
  cases hw : w file records with
  | error why => exact ⟨⟨file, records, hw⟩, _, h.folded, pending_of_isReady ready⟩
  | ok at' =>
    dsimp only
    -- The line steps the control folds alone, and they accept it.
    have controls : records.toList.filterMap LogRecord.control? = (resumeLine folds selected returns).toList := by
      rw [← hrecords]
      exact controls_line (resumeLine folds selected returns).toList _ (resumeNotes_asides folds)
    obtain ⟨folds', hline, settled⟩ := resumeLine_settles folds selected returns at'.1
    have hsteps : (placed at' records).foldlM stepControl folds = .ok folds' := by
      rw [steps_line (fun r hr => number_placed hr) folds, values_placed, controls]
      exact hline
    rw [hsteps]
    dsimp only
    have untold : LogFile.transcripts (placed at' records) = [] := by
      apply transcripts_eq_nil
      intro r hr p
      have value : r.value ∈ records.toList := values_placed at' records ▸ List.mem_map_of_mem hr
      rw [← hrecords] at value
      rcases List.mem_append.mp (show r.value ∈ (resumeLine folds selected returns).toList.map .control ++ resumeNotes folds
        from value) with control | note
      · obtain ⟨c, -, eq⟩ := List.mem_map.mp control
        rw [← eq]
        nofun
      · rw [resumeNotes_asides folds _ note]
        nofun
    have tracks : Tracks id (file ++ placed at' records) log folds' := by
      refine ⟨?_, ?_, h.whole⟩
      · rw [resume_append h.folded]
        exact steps_controls untold hsteps
      · rw [transcripts_append, untold, List.append_nil]
        exact h.written
    split
    · next changed =>
      generalize hrun : log.recordTranscript (w.writer (file ++ placed at' records)) (.system system) = run
      have filing := tracks.recorded (w := w) (p := .system system) nofun
      rw [hrun] at filing
      cases filing with
      | lost why same =>
        refine ⟨⟨_, _, why⟩, ⟨log.context, folds'⟩, ?_, pending_of_isReady ready⟩
        rw [same]
        exact tracks.folded
      | filed wrote next =>
        refine ⟨settled, ?_, next.folded⟩
        unfold Context.isReady
        rw [state_of_system wrote]
        exact ready
      | foreign refused =>
        apply refused
        rw [Context.judge_eq_none]
        exact ⟨rfl, by simp [Context.opens], rfl, by simp [Context.extended]⟩
    · exact ⟨settled, ready, tracks.folded⟩

omit [Host] in
theorem awaits_of_not_ready {context : Context} (waiting : ¬ context.isReady) :
    ∃ ids, context.state = .awaitingToolResults ids := by
  unfold Context.isReady at waiting
  cases hstate : context.state with
  | awaitingToolResults ids => exact ⟨ids, rfl⟩
  | readyForUser => simp [hstate, State.admitsNewTurn] at waiting
  | awaitingAssistantAfterUser => simp [hstate, State.admitsNewTurn] at waiting
  | awaitingAssistantAfterToolResults => simp [hstate, State.admitsNewTurn] at waiting

theorem quiesce_unrun {writer : Writer} {ids : List String} (awaits : log.context.state = .awaitingToolResults ids) :
    log.quiesce writer .aborted = log.recordTranscript writer (unrunResults ids) := by
  unfold AgentLog.quiesce
  rw [awaits]
  exact Operation.recordAll_singleton _

theorem state_of_unrun {log' : AgentLog} {ids : List String} {locus : Locus}
    (h : log.Wrote (unrunResults ids) log' locus) : log'.context.isReady := by
  unfold Context.isReady
  rw [(Context.state_of_extends h.step (.results _)).1]
  rfl

theorem reconciled_of_distinct {root : Root} (accepted : resume id file = .ok root)
    (distinct : root.context.state.pending.Nodup) (w : LineWriter) (selected : Selected) (returns : Bool)
    (system : String) :
    ∃ ending, w.reopen id file selected returns system = .ok ending ∧ Reconciled w id ending := by
  have folded := folded_of_resume accepted
  have tracks : Tracks id file ⟨id, root.context, file.transcripts, none⟩ root.folds := ⟨accepted, rfl, rfl⟩
  unfold LineWriter.reopen
  rw [accepted]
  refine ⟨_, rfl, ?_⟩
  dsimp only
  by_cases ready : root.context.isReady
  · rw [if_pos ready]
    dsimp only
    have same : file.grown file.transcripts = file :=
      grown_self (show AgentLog.written ⟨id, root.context, file.transcripts, none⟩ = _ from rfl)
    rw [same]
    exact tracks.reconciled ready selected returns system
  · obtain ⟨ids, awaits⟩ := awaits_of_not_ready ready
    rw [if_neg ready, quiesce_unrun awaits]
    rw [awaits] at distinct
    generalize hrun : AgentLog.recordTranscript (w.writer file) (unrunResults ids)
      ⟨id, root.context, file.transcripts, none⟩ = run
    have filing := tracks.recorded (w := w) (p := unrunResults ids) nofun
    rw [hrun] at filing
    cases filing with
    | lost why same =>
      refine ⟨⟨_, _, why⟩, root, ?_, ?_⟩
      · rw [same]
        exact accepted
      · rw [awaits]
        exact distinct
    | filed wrote next => exact next.reconciled (state_of_unrun wrote) selected returns system
    | foreign refused => exact refused (Context.judge_unrun folded.rested awaits distinct)

def steadyLines : LineWriter := fun _ _ => .ok (1, ⟨0, 1⟩, ⟨0, Record.Sum.zero_lt⟩)

/-- Calls awaited under one id twice: the results a quiesce writes for them panic the fold. -/
theorem panics_of_repeated {root : Root} (accepted : resume id file = .ok root)
    (repeated : ¬ root.context.state.pending.Nodup) (selected : Selected) (returns : Bool) (system : String) :
    ∃ message file', steadyLines.reopen id file selected returns system = .ok (.panicked message file') := by
  have tracks : Tracks id file ⟨id, root.context, file.transcripts, none⟩ root.folds := ⟨accepted, rfl, rfl⟩
  have waiting : ¬ root.context.isReady := fun ready => repeated (pending_of_isReady ready)
  obtain ⟨ids, awaits⟩ := awaits_of_not_ready waiting
  rw [awaits] at repeated
  unfold LineWriter.reopen
  rw [accepted]
  dsimp only [Except.map]
  rw [if_neg waiting, quiesce_unrun awaits]
  generalize hrun : AgentLog.recordTranscript (steadyLines.writer file) (unrunResults ids)
    ⟨id, root.context, file.transcripts, none⟩ = run
  have filing := tracks.recorded (w := steadyLines) (p := unrunResults ids) nofun
  rw [hrun] at filing
  cases filing with
  | lost why same => cases why
  | @filed locus log' wrote next =>
    have refused := AgentLog.judge_unrun_repeated (n := root.context.len + 1) awaits repeated
    have step := wrote.step
    unfold Context.stepTranscript at step
    cases hj : root.context.judge (root.context.len + 1) (unrunResults ids) with
    | none => exact absurd hj refused
    | some reason => simp [hj] at step
  | foreign refused => exact ⟨_, _, rfl⟩

/-- Whatever state its writer died in, an accepted log reopens reconciled, and so does what an
interrupted reopen leaves of it, just as no call is awaited under one id twice. -/
theorem reopen_reconciles {root : Root} (accepted : resume id file = .ok root) :
    (∀ (w : LineWriter) (selected : Selected) (returns : Bool) (system : String), ∃ ending,
      w.reopen id file selected returns system = .ok ending ∧ Reconciled w id ending) ↔
      root.context.state.pending.Nodup := by
  constructor
  · intro reconciles
    by_contra repeated
    obtain ⟨message, file', panics⟩ := panics_of_repeated accepted repeated ⟨"", none⟩ false ""
    obtain ⟨ending, ends, reconciled⟩ := reconciles steadyLines ⟨"", none⟩ false ""
    rw [panics] at ends
    cases ends
    exact reconciled
  · intro distinct w selected returns system
    exact reconciled_of_distinct accepted distinct w selected returns system

/-! ## One id twice -/

omit [Host] in
def headed (started : Mailbox.Started) (log : AgentLog) : LogFile :=
  ⟨⟨⟨1, 0⟩, ⟨0, 1⟩, ⟨0, Record.Sum.zero_lt⟩⟩, .control (.sessionStarted started)⟩ :: log.written.map LogRecord.filed

theorem resume_headed {started : Mailbox.Started} (root : started.parent = none) (folded : log.Folded) :
    resume log.id (headed started log) = .ok ⟨log.context, .seed started⟩ := by
  unfold headed resume
  dsimp only
  rw [root]
  exact steps_filed folded

omit [Host] in
/-- Its writer died after a message that calls twice under one id. -/
theorem reopen_panics_repeated : ∃ (_ : Host) (id : AgentId) (file : LogFile) (root : Root) (message : String)
    (file' : LogFile), resume id file = .ok root ∧
      steadyLines.reopen id file ⟨"model", none⟩ false "" = .ok (.panicked message file') := by
  let host := Context.fileless
  have reached : AgentLog.Reached AgentLog.steadyWriter (fun _ _ => True) (AgentLog.awaiting ["a", "a"]) :=
    AgentLog.awaiting_reached (fun _ _ => trivial) fun _ => trivial
  have accepted := resume_headed (show (⟨none, false, ⟨"model", none⟩⟩ : Mailbox.Started).parent = none from rfl) reached.folded
  obtain ⟨message, file', panics⟩ := panics_of_repeated accepted (by decide) ⟨"model", none⟩ false ""
  exact ⟨host, _, _, _, message, file', accepted, panics⟩

omit [Host] in
/-- One call outstanding: the log reopens. -/
theorem reopen_reconciles_one_call : ∃ (_ : Host) (id : AgentId) (file : LogFile) (root : Root),
    resume id file = .ok root ∧ root.context.state = .awaitingToolResults ["a"] ∧ ∃ ending,
      steadyLines.reopen id file ⟨"model", none⟩ false "" = .ok ending ∧ Reconciled steadyLines id ending := by
  let host := Context.fileless
  have reached : AgentLog.Reached AgentLog.steadyWriter (fun _ _ => True) (AgentLog.awaiting ["a"]) :=
    AgentLog.awaiting_reached (fun _ _ => trivial) fun _ => trivial
  have accepted := resume_headed (show (⟨none, false, ⟨"model", none⟩⟩ : Mailbox.Started).parent = none from rfl) reached.folded
  have reconciled := (reopen_reconciles accepted).mpr (by decide) steadyLines ⟨"model", none⟩ false ""
  exact ⟨host, _, _, _, accepted, rfl, reconciled⟩

end Ral.Session
