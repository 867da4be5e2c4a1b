import Mathlib.Data.List.Nodup
import Ral.Pipeline.Runs

/-! # How a pipeline is judged

Whatever the order in which its events arrive, every stage is filed once, the teardown
only rises, and the outcome is the verdict of how the stages settled.
-/

namespace Ral.Pipeline

open Ral.Eval Ral.Process

namespace Machine

variable {Fact : Type}

/-! ## What a step does -/

/-- The loops take an event: it is filed, or not, and the effect marks the stages. -/
structure Turned (m : Machine Fact) (ev : Event Fact) (rest : List (Event Fact)) (m' : Machine Fact) :
    Prop where
  queue : m'.queue = rest
  unposted : m'.unposted = m.unposted
  filed : m'.filed = m.filed ++ ev.files.toList
  took : ∃ c, m.collect.Took c ev.files ∧ c.Marks m'.collect
  looping : m'.phase = m.phase ∨ m'.phase = .driving ∨ ∃ w, m'.phase = .waiting w

theorem phase_cancelAll (cause : CancelCause) (c : CollectState Fact) :
    (c.cancelAll cause).2 = .driving ∨ ∃ w, (c.cancelAll cause).2 = .waiting w := by
  unfold CollectState.cancelAll CollectState.afterGrace
  split
  · exact Or.inl rfl
  · right
    split
    · exact ⟨_, rfl⟩
    · split
      · exact ⟨_, rfl⟩
      · exact ⟨_, rfl⟩

theorem phase_rollBack (inForce : Option CancelCause) (c : CollectState Fact) :
    (c.rollBack inForce).2 = .driving ∨ ∃ w, (c.rollBack inForce).2 = .waiting w := by
  unfold CollectState.rollBack
  split
  · exact phase_cancelAll _ c
  · exact Or.inl rfl

theorem phase_next (c : CollectState Fact) (w : Wait) : w.next c = .driving ∨ ∃ w', w.next c = .waiting w' := by
  cases w with
  | grace =>
    right
    show ∃ w', c.afterGrace = .waiting w'
    unfold CollectState.afterGrace
    split
    · exact ⟨_, rfl⟩
    · exact ⟨_, rfl⟩
  | threads => exact Or.inr ⟨_, rfl⟩
  | drain => exact Or.inl rfl

variable {m m' : Machine Fact} {ev : Event Fact} {rest : List (Event Fact)}

theorem turned_driven {c : CollectState Fact} {effect : Option Effect}
    (step : m.collect.step ev = .ok (c, effect)) (took : m.collect.Took c ev.files) :
    m.Turned ev rest (m.driven ev rest) := by
  unfold driven
  rw [step]
  cases effect with
  | none => exact ⟨rfl, rfl, rfl, ⟨c, took, .refl c⟩, Or.inl rfl⟩
  | some effect =>
    cases effect with
    | killStage ix => exact ⟨rfl, rfl, rfl, ⟨c, took, CollectState.marks_killStage ix c⟩, Or.inl rfl⟩
    | cancelAll cause =>
      exact ⟨rfl, rfl, rfl, ⟨c, took, CollectState.marks_cancelAll cause c⟩,
        Or.inr (phase_cancelAll cause c)⟩

theorem turned_drained {c : CollectState Fact} {effect : Option Effect}
    (step : m.collect.step ev = .ok (c, effect)) (took : m.collect.Took c ev.files) :
    m.Turned ev rest (m.drained ev rest) := by
  unfold drained
  rw [step]
  cases effect with
  | none => exact ⟨rfl, rfl, rfl, ⟨c, took, .refl c⟩, Or.inl rfl⟩
  | some effect =>
    cases effect with
    | killStage ix => exact ⟨rfl, rfl, rfl, ⟨c, took, .refl c⟩, Or.inl rfl⟩
    | cancelAll cause =>
      exact ⟨rfl, rfl, rfl, ⟨c, took, CollectState.marks_escalate_getD cause c⟩, Or.inl rfl⟩

/-! ## The invariant -/

/-- The stages whose end is still to be received, posted or not. -/
def owed (m : Machine Fact) : List ℕ := m.unposted ++ m.queue.filterMap Event.files

variable [Accounts Fact]

def SettlesTo (o : Option (StageEnd Fact)) (ending : End) : Prop :=
  ∃ e looks, o = some e ∧ ending = (e.settle looks).ending

def Stands (m : Machine Fact) : Prop :=
  match m.phase with
  | .launched => True
  | .driving => True
  | .waiting _ => True
  | .joining => m.collect.live = false
  | .folding rest tally => m.collect.live = false ∧ ∃ done ends,
      m.collect.observed = done ++ rest ∧ List.Forall₂ SettlesTo done ends ∧ tally.Counts ends
  | .ended outcome => ∃ ends inForce,
      List.Forall₂ SettlesTo m.collect.observed ends ∧ Verdict ends m.collect.teardown inForce outcome
  | .panicked _ => False

structure Sound (launched : List StageKind) (m : Machine Fact) : Prop where
  fit : m.collect.Fit launched
  fits : ∀ ev ∈ m.queue, ev.Fits launched
  once : m.owed.Nodup
  ready : ∀ ix ∈ m.owed, ∃ kind, launched[ix]? = some kind ∧ m.collect.kinds[ix]? = some (some kind)
  nodup : m.filed.Nodup
  filed : ∀ ix, ix ∈ m.filed ↔ ∃ e, m.collect.observed[ix]? = some (some e)
  stands : m.Stands

variable {launched : List StageKind}

theorem stands_loop (h : m.phase = .driving ∨ ∃ w, m.phase = .waiting w) : m.Stands := by
  unfold Stands
  rcases h with h | ⟨w, h⟩ <;> rw [h] <;> trivial

theorem Stands.congr (h : m.Stands) (phase : m'.phase = m.phase) (collect : m'.collect = m.collect) :
    m'.Stands := by
  unfold Stands at h ⊢
  rw [phase, collect]
  exact h

theorem Sound.marks (s : m.Sound launched) (marks : m.collect.Marks m'.collect)
    (queue : m'.queue.Sublist m.queue) (unposted : m'.unposted = m.unposted) (filed : m'.filed = m.filed)
    (stands : m'.Stands) : m'.Sound launched := by
  have sub : m'.owed.Sublist m.owed := by
    unfold owed
    rw [unposted]
    exact (List.Sublist.refl _).append (queue.filterMap _)
  refine ⟨s.fit.mark marks, fun ev mem => s.fits ev (queue.subset mem), s.once.sublist sub, ?_, ?_, ?_, stands⟩
  · intro ix mem
    rw [marks.kinds]
    exact s.ready ix (sub.subset mem)
  · rw [filed]
    exact s.nodup
  · intro ix
    rw [filed, marks.observed]
    exact s.filed ix

/-- A producer's post moves a stage's end from the unposted to the queue. -/
theorem Sound.post (s : m.Sound launched) (fits : ev.Fits launched) (queue : m'.queue = m.queue ++ [ev])
    (unposted : m.unposted.Perm (ev.files.toList ++ m'.unposted)) (collect : m'.collect = m.collect)
    (phase : m'.phase = m.phase) (filed : m'.filed = m.filed) : m'.Sound launched := by
  have perm : m'.owed.Perm m.owed := by
    have tail : [ev].filterMap Event.files = ev.files.toList := by
      cases h : ev.files <;> simp [h]
    unfold owed
    rw [queue, List.filterMap_append, tail]
    have front := unposted.append_right (m.queue.filterMap Event.files)
    refine List.Perm.trans ?_ front.symm
    rw [← List.append_assoc]
    refine List.perm_append_comm.trans ?_
    rw [List.append_assoc]
  refine ⟨?_, ?_, perm.nodup_iff.mpr s.once, ?_, ?_, ?_, s.stands.congr phase collect⟩
  · rw [collect]
    exact s.fit
  · intro other mem
    rw [queue, List.mem_append, List.mem_singleton] at mem
    rcases mem with mem | rfl
    · exact s.fits other mem
    · exact fits
  · intro ix mem
    rw [collect]
    exact s.ready ix (perm.subset mem)
  · rw [filed]
    exact s.nodup
  · intro ix
    rw [filed, collect]
    exact s.filed ix

/-- A loop takes one event, whose end, if it is one, was owed. -/
theorem Sound.turn (s : m.Sound launched) (turned : m.Turned ev rest m') (fits : ∀ e ∈ rest, e.Fits launched)
    (owed : m.owed.Perm (ev.files.toList ++ m'.owed)) (stands : m'.Stands) : m'.Sound launched := by
  obtain ⟨c, took, marks⟩ := turned.took
  have fit := (s.fit.took took).mark marks
  have once := owed.nodup_iff.mp s.once
  have ready : ∀ ix ∈ m'.owed, ∃ kind, launched[ix]? = some kind ∧ m.collect.kinds[ix]? = some (some kind) :=
    fun ix mem => s.ready ix (owed.symm.subset (List.mem_append_right _ mem))
  refine ⟨fit, by rwa [turned.queue], (List.nodup_append.mp once).2.1, ?_, ?_, ?_, stands⟩
  · intro ix mem
    obtain ⟨kind, at', running⟩ := ready ix mem
    refine ⟨kind, at', ?_⟩
    rw [marks.kinds]
    generalize names : ev.files = files at took once
    cases took with
    | none kinds observed teardown => rw [kinds, running]
    | filed jx e kinds observed teardown =>
      have other : jx ≠ ix := (List.nodup_append.mp once).2.2 jx (by simp) ix mem
      rw [kinds, List.getElem?_set_ne other, running]
  · rw [turned.filed]
    refine List.nodup_append.mpr ⟨s.nodup, ?_, ?_⟩
    · cases ev.files <;> simp
    · rintro ix old jx new rfl
      have mem : ix ∈ m.owed := owed.symm.subset (List.mem_append_left _ new)
      obtain ⟨kind, at', running⟩ := s.ready ix mem
      obtain ⟨e, found⟩ := (s.filed ix).mp old
      rcases s.fit.each ix kind at' with ⟨-, unfiled⟩ | ⟨gone, -⟩
      · rw [found] at unfiled
        cases unfiled
      · rw [running] at gone
        cases gone
  · intro ix
    rw [turned.filed, marks.observed, List.mem_append, s.filed]
    generalize names : ev.files = files at took owed
    cases took with
    | none kinds observed teardown => simp [observed]
    | filed jx e kinds observed teardown =>
      have mem : jx ∈ m.owed := owed.symm.subset (by simp)
      obtain ⟨kind, at', -⟩ := s.ready jx mem
      have bound : jx < m.collect.observed.length := by
        rw [s.fit.observed]
        exact (List.getElem?_eq_some_iff.mp at').1
      rw [observed]
      by_cases same : jx = ix
      · subst same
        simp [bound]
      · have other : ix ≠ jx := fun eq => same eq.symm
        rw [List.getElem?_set_ne same]
        simp [other]

omit [Accounts Fact] in
theorem owed_perm {bounded : Bool} (got : m.collect.Recv bounded m.queue (some ev) rest)
    (turned : m.Turned ev rest m') : m.owed.Perm (ev.files.toList ++ m'.owed) := by
  unfold owed
  rw [turned.queue, turned.unposted]
  cases got with
  | cancelled cause above => exact .refl _
  | next ev rest head =>
    rw [head, List.filterMap_cons]
    cases ev.files with
    | none => exact .refl _
    | some ix => exact List.perm_middle

/-- A loop's turn: the event is received, no panic, and the machine stays sound. -/
theorem Sound.received (s : m.Sound launched) {bounded : Bool}
    (got : m.collect.Recv bounded m.queue (some ev) rest)
    (looping : m.phase = .driving ∨ ∃ w, m.phase = .waiting w) {run : Machine Fact}
    (turned : ∀ c effect, m.collect.step ev = .ok (c, effect) → m.collect.Took c ev.files →
      m.Turned ev rest run) :
    m.Turned ev rest run ∧ run.Sound launched := by
  have queued : ev.Fits launched ∧ ∀ e ∈ rest, e.Fits launched := by
    cases got with
    | cancelled cause above => exact ⟨trivial, s.fits⟩
    | next ev rest head =>
      have fits := s.fits
      rw [head] at fits
      exact ⟨fits ev (by simp), fun e mem => fits e (List.mem_cons_of_mem _ mem)⟩
  have live : ∀ ix ∈ ev.files, ∃ kind, launched[ix]? = some kind ∧ m.collect.kinds[ix]? = some (some kind) := by
    intro ix named
    apply s.ready
    cases got with
    | cancelled cause above => cases named
    | next ev rest head =>
      unfold owed
      rw [head, List.filterMap_cons, Option.mem_def.mp named]
      simp
  obtain ⟨c, effect, step, took⟩ := CollectState.step_took s.fit queued.1 live
  have turn := turned c effect step took
  refine ⟨turn, s.turn turn queued.2 (owed_perm got turn) (stands_loop ?_)⟩
  rcases turn.looping with same | loop
  · rwa [same]
  · exact loop

theorem Step.sound (step : Step launched m m') (s : m.Sound launched) : m'.Sound launched := by
  cases step with
  | postEnded ix e outcome kind owed =>
    exact s.post (show Event.Fits launched (.ended ix outcome) from ⟨e, kind⟩) rfl (List.perm_cons_erase owed)
      rfl rfl rfl
  | postReturned ix t obs kind owed =>
    exact s.post (show Event.Fits launched (.returned ix obs) from ⟨t, kind⟩) rfl (List.perm_cons_erase owed)
      rfl rfl rfl
  | postWrote ix edge => exact s.post (show Event.Fits launched (.wrote ix) from edge) rfl (.refl _) rfl rfl rfl
  | postAnchorDied => exact s.post (show Event.Fits launched .anchorDied from trivial) rfl (.refl _) rfl rfl rfl
  | postHeard signal => exact s.post (show Event.Fits launched (.heard signal) from trivial) rfl (.refl _) rfl rfl rfl
  | join stands => exact s.marks (.refl _) (.refl _) rfl rfl (stands_loop (Or.inl rfl))
  | rollBack inForce stands =>
    exact s.marks (CollectState.marks_rollBack inForce _) (.refl _) rfl rfl
      (stands_loop (phase_rollBack inForce _))
  | drive ev rest stands live got =>
    exact (s.received got (Or.inl stands) fun c effect step took => turned_driven step took).2
  | driveOver stands over' =>
    refine s.marks (.refl _) (.refl _) rfl rfl ?_
    rcases over' with over' | got
    · exact over'
    · cases got with
      | expired deadline => cases deadline
      | disconnected gone => exact gone
  | wait w ev rest stands more got =>
    exact (s.received got (Or.inr ⟨w, stands⟩) fun c effect step took => turned_drained step took).2
  | waitOver w stands over' => exact s.marks (.refl _) (.refl _) rfl rfl (stands_loop (phase_next _ w))
  | fold stands =>
    have over' : m.collect.live = false := by
      have standing := s.stands
      rwa [Stands, stands] at standing
    have marks := CollectState.marks_hearOut m.queue m.collect
    refine s.marks marks (List.nil_sublist _) rfl rfl ⟨?_, [], [], ?_, .nil, Tally.counts_empty⟩
    · rw [marks.live, over']
    · rw [marks.observed, List.nil_append]
  | settle looks e rest tally stands =>
    have standing := s.stands
    rw [Stands, stands] at standing
    obtain ⟨over', done, ends, split, settled, counts⟩ := standing
    obtain ⟨e', rfl⟩ := s.fit.over over' e (by simp [split])
    refine s.marks (.refl _) (.refl _) rfl rfl ⟨over', done ++ [some e'], _, ?_, ?_, counts.take _⟩
    · rw [List.append_assoc]
      exact split
    · exact List.rel_append settled (.cons ⟨e', looks, rfl, rfl⟩ .nil)
  | conclude inForce tally stands =>
    have standing := s.stands
    rw [Stands, stands] at standing
    obtain ⟨over', done, ends, split, settled, counts⟩ := standing
    rw [List.append_nil] at split
    refine s.marks (.refl _) (.refl _) rfl rfl ⟨ends, inForce, ?_, counts.verdict_conclude _ _⟩
    rwa [split]

/-! ## Runs -/

/-- What no step takes back: an end once filed, and the teardown's level. -/
structure Past (m m' : Machine Fact) : Prop where
  filed : m.filed <+: m'.filed
  observed : ∀ (ix : ℕ) (e : StageEnd Fact), m.collect.observed[ix]? = some (some e) → m'.collect.observed[ix]? = some (some e)
  teardown : CancelCause.level m.collect.teardown ≤ CancelCause.level m'.collect.teardown

omit [Accounts Fact] in
theorem Past.refl (m : Machine Fact) : m.Past m := ⟨List.prefix_refl _, fun _ _ h => h, Nat.le_refl _⟩

omit [Accounts Fact] in
theorem Past.trans {m'' : Machine Fact} (h : m.Past m') (h' : m'.Past m'') : m.Past m'' :=
  ⟨h.filed.trans h'.filed, fun ix e found => h'.observed ix e (h.observed ix e found),
    Nat.le_trans h.teardown h'.teardown⟩

omit [Accounts Fact] in
theorem Past.marks (marks : m.collect.Marks m'.collect) (filed : m'.filed = m.filed) : m.Past m' := by
  refine ⟨by simp [filed], fun ix e found => ?_, marks.teardown⟩
  rw [marks.observed]
  exact found

theorem Sound.past_turn (s : m.Sound launched) (turned : m.Turned ev rest m') (sound : m'.Sound launched) :
    m.Past m' := by
  obtain ⟨c, took, marks⟩ := turned.took
  refine ⟨by simp [turned.filed], fun ix e found => ?_, took.mark marks⟩
  have once := sound.nodup
  rw [turned.filed] at once
  have old : ix ∈ m.filed := (s.filed ix).mpr ⟨e, found⟩
  rw [marks.observed]
  generalize names : ev.files = files at took once
  cases took with
  | none kinds observed teardown => rw [observed, found]
  | filed jx e' kinds observed teardown =>
    have other : jx ≠ ix := by
      rintro rfl
      exact (List.nodup_append.mp once).2.2 jx old jx (by simp) rfl
    rw [observed, List.getElem?_set_ne other, found]

theorem Step.past (step : Step launched m m') (s : m.Sound launched) : m.Past m' := by
  cases step with
  | postEnded ix e outcome kind owed => exact .marks (.refl _) rfl
  | postReturned ix t obs kind owed => exact .marks (.refl _) rfl
  | postWrote ix edge => exact .marks (.refl _) rfl
  | postAnchorDied => exact .marks (.refl _) rfl
  | postHeard signal => exact .marks (.refl _) rfl
  | join stands => exact .marks (.refl _) rfl
  | rollBack inForce stands => exact .marks (CollectState.marks_rollBack inForce _) rfl
  | drive ev rest stands live got =>
    obtain ⟨turned, sound⟩ :=
      s.received got (Or.inl stands) fun c effect step took => turned_driven step took
    exact s.past_turn turned sound
  | driveOver stands over' => exact .marks (.refl _) rfl
  | wait w ev rest stands more got =>
    obtain ⟨turned, sound⟩ :=
      s.received got (Or.inr ⟨w, stands⟩) fun c effect step took => turned_drained step took
    exact s.past_turn turned sound
  | waitOver w stands over' => exact .marks (.refl _) rfl
  | fold stands => exact .marks (CollectState.marks_hearOut _ _) rfl
  | settle looks e rest tally stands => exact .marks (.refl _) rfl
  | conclude inForce tally stands => exact .marks (.refl _) rfl

omit [Accounts Fact] in
/-- The stages launched stand in their slots. -/
theorem fit_launch (launched : List StageKind) (loan : Option TerminalLoan) :
    (CollectState.launch launched loan : CollectState Fact).Fit launched ∧
      (CollectState.launch launched loan : CollectState Fact).observed = launched.map fun _ => none := by
  induction launched using List.reverseRecOn with
  | nil => exact ⟨⟨rfl, rfl, by simp⟩, rfl⟩
  | append_singleton launched kind ih =>
    have snoc : (CollectState.launch (launched ++ [kind]) loan : CollectState Fact) =
        (CollectState.launch launched loan).push kind := by
      simp only [CollectState.launch, List.foldl_append, List.foldl_cons, List.foldl_nil]
    rw [snoc]
    generalize CollectState.launch launched loan = c at ih
    obtain ⟨fit, blank⟩ := ih
    have kinds : (c.push kind).kinds = c.kinds ++ [some kind] := by
      simp [CollectState.kinds, CollectState.push, StageHandle.new]
    have observed : (c.push kind).observed = c.observed ++ [none] := rfl
    refine ⟨⟨?_, ?_, fun ix kind' at' => Or.inl ?_⟩, by simp [observed, blank]⟩
    · simp [kinds, fit.kinds]
    · simp [observed, fit.observed]
    · rw [kinds, observed]
      by_cases old : ix < launched.length
      · rw [List.getElem?_append_left old] at at'
        rw [List.getElem?_append_left (by rw [fit.kinds]; exact old),
          List.getElem?_append_left (by rw [fit.observed]; exact old)]
        rcases fit.each ix kind' at' with running | ⟨-, e, found⟩
        · exact running
        · simp [blank, List.getElem?_replicate] at found
      · have last : ix = launched.length := by
          have bound := (List.getElem?_eq_some_iff.mp at').1
          rw [List.length_append, List.length_singleton] at bound
          omega
        subst last
        rw [List.getElem?_concat_length, Option.some.injEq] at at'
        subst at'
        refine ⟨?_, ?_⟩
        · rw [← fit.kinds, List.getElem?_concat_length]
        · rw [← fit.observed, List.getElem?_concat_length]

theorem sound_start (launched : List StageKind) (loan : Option TerminalLoan) :
    (start launched loan : Machine Fact).Sound launched := by
  have fit : (CollectState.launch launched loan : CollectState Fact).Fit launched := (fit_launch launched loan).1
  have blank : (CollectState.launch launched loan : CollectState Fact).observed = _ := (fit_launch launched loan).2
  refine ⟨fit, by simp [start], by simp [owed, start, List.nodup_range], ?_, by simp [start], ?_, trivial⟩
  · intro ix mem
    simp only [owed, start, List.filterMap_nil, List.append_nil, List.mem_range] at mem
    refine ⟨launched[ix], List.getElem?_eq_getElem mem, ?_⟩
    rcases fit.each ix _ (List.getElem?_eq_getElem mem) with ⟨running, -⟩ | ⟨-, e, found⟩
    · exact running
    · simp [blank, List.getElem?_replicate] at found
  · intro ix
    simp [start, blank, List.getElem?_replicate]

theorem Steps.kept (steps : Steps launched m m') (s : m.Sound launched) : m'.Sound launched ∧ m.Past m' := by
  induction steps with
  | refl => exact ⟨s, .refl m⟩
  | tail _ step ih => exact ⟨step.sound ih.1, ih.2.trans (step.past ih.1)⟩

/-! ## The verdict -/

/-- A thread's stop naming its own stage is forgiven, as is an external's death by what
it was sent, unless a stronger cause is in force. -/
def Forgives (Fact : Type) [Accounts Fact] : Prop :=
  (∀ (obs : StageObservation Fact) (stage : ℕ) (looks : Looks), obs.names stage →
      ((StageEnd.thread obs stage).settle looks).ending = .ok .unit) ∧
    ∀ (e : ExternalStage) (outcome : WaitOutcome) (c : CancelCause) (looks : Looks),
      outcome.isDeathBy c → CancelCause.level (looks.cause.filter (· ≠ .readerGone)) ≤ c.asU8 →
      ((StageEnd.external e outcome (some c) : StageEnd Fact).settle looks).ending = .ok .unit

theorem forgives : Forgives Fact := by
  refine ⟨fun obs stage looks own => ?_, fun e outcome c looks by' covered => ?_⟩
  · rw [StageEnd.settle, if_pos own]
    rfl
  · have cause : CancelCause.max (some c) (looks.cause.filter (· ≠ .readerGone)) = some c := by
      unfold CancelCause.max
      rw [if_neg]
      rw [CancelCause.level_some]
      omega
    have consumed : externalBreak Fact e outcome (some c) looks = none := by
      simp only [externalBreak, cause, (WaitOutcome.classify_cancelled).mpr ⟨rfl, by'⟩, if_true]
    simp only [StageEnd.settle, finishExternalSettlement, consumed]
    rfl

/-- In every run of the collector, over every order of events, no end panics it, each
stage is filed at most once, the teardown only rises, and the outcome is the one
verdict of how the stages settled. -/
theorem verdict_of_settlements (launched : List StageKind) (loan : Option TerminalLoan) (m m' : Machine Fact)
    (run : Steps launched (start launched loan) m) (later : Steps launched m m') :
    (∀ text, m.phase ≠ .panicked text) ∧ m.filed.Nodup ∧ m.Past m' ∧ Forgives Fact ∧
      ∀ outcome, m.phase = .ended outcome → ∃ ends inForce,
        List.Forall₂ SettlesTo m.collect.observed ends ∧ ends.length = launched.length ∧
          Verdict ends m.collect.teardown inForce outcome ∧
          ∀ other, Verdict ends m.collect.teardown inForce other → other = outcome := by
  have sound := (run.kept (sound_start launched loan)).1
  refine ⟨fun text panicked => ?_, sound.nodup, (later.kept sound).2, forgives, fun outcome ended => ?_⟩
  · have stands := sound.stands
    rw [Stands, panicked] at stands
    exact stands
  · have stands := sound.stands
    rw [Stands, ended] at stands
    obtain ⟨ends, inForce, settled, verdict⟩ := stands
    refine ⟨ends, inForce, settled, ?_, verdict, fun other h => verdict.unique h⟩
    rw [← settled.length_eq, sound.fit.observed]

/-- The first of two threads fails, the second exits: the exit is the pipeline's
verdict, under the teardown its escape began. -/
theorem verdict_of_an_exit : ∃ (_ : Accounts String) (m : Machine String),
    Steps [.thread ⟨0⟩, .thread ⟨1⟩] (start [.thread ⟨0⟩, .thread ⟨1⟩] none) m ∧ m.filed = [0, 1] ∧
      m.phase = .ended (.ok (.error (.escape (.exit 3)))) ∧ ∃ ends inForce,
        ends.filterMap breakOf = [.error (.new "no such file"), .escape (.exit 3)] ∧
          Verdict ends m.collect.teardown inForce (.ok (.error (.escape (.exit 3)))) := by
  let accounts : Accounts String := ⟨fun name _ => .new name, fun _ name _ _ => name⟩
  have run : ∃ m : Machine String, Steps [.thread ⟨0⟩, .thread ⟨1⟩] (start [.thread ⟨0⟩, .thread ⟨1⟩] none) m ∧
      m.filed = [0, 1] ∧ m.phase = .ended (.ok (.error (.escape (.exit 3)))) ∧
        m.collect.observed = [some (.thread ⟨.err (.new "no such file"), []⟩ 0), some (.thread ⟨.exited 3, []⟩ 1)] :=
    ⟨_, (((((((((((Relation.ReflTransGen.refl.tail
      (.postReturned _ 0 ⟨0⟩ ⟨.err (.new "no such file"), []⟩ rfl (by decide))).tail
      (.postReturned _ 1 ⟨1⟩ ⟨.exited 3, []⟩ rfl (by decide))).tail (.join _ rfl)).tail
      (.drive _ _ _ rfl rfl (.next _ _ rfl))).tail (.drive _ _ _ rfl rfl (.next _ _ rfl))).tail
      (.waitOver _ .grace rfl (Or.inl rfl))).tail (.waitOver _ .threads rfl (Or.inl rfl))).tail
      (.waitOver _ .drain rfl (Or.inl rfl))).tail (.driveOver _ rfl (Or.inl rfl))).tail (.fold _ rfl)).tail
      (.settle _ ⟨none, none, none⟩ _ _ _ rfl) |>.tail (.settle _ ⟨none, none, none⟩ _ _ _ rfl)).tail
      (.conclude _ none _ rfl), rfl, rfl, rfl⟩
  obtain ⟨m, steps, filed, ended, observed⟩ := run
  obtain ⟨ends, inForce, settled, -, verdict, -⟩ :=
    (verdict_of_settlements [.thread ⟨0⟩, .thread ⟨1⟩] none m m steps .refl).2.2.2.2 _ ended
  refine ⟨accounts, m, steps, filed, ended, ends, inForce, ?_, verdict⟩
  rw [observed] at settled
  cases settled with
  | cons first rest =>
    cases rest with
    | cons second rest =>
      cases rest
      obtain ⟨_, _, he, rfl⟩ := first
      cases he
      obtain ⟨_, _, he, rfl⟩ := second
      cases he
      rfl

end Machine

end Ral.Pipeline
