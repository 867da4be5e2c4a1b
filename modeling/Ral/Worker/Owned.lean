import Ral.Worker.Brood

/-! # No child outlives its owner's closing -/

namespace Ral.Worker

namespace Handle

variable {h h' : Handle}

theorem publish_state (e : Eval.End) (h : Handle) : (h.publish e).state = h.state := by
  unfold Handle.publish
  split <;> rfl

theorem publish_cancelled (e : Eval.End) (h : Handle) : (h.publish e).cancelled = h.cancelled := by
  unfold Handle.publish
  split <;> rfl

theorem Stands.running_of_stopping (s : h.Stands) (holding : h.holder = .stopping) :
    h.state = .running ∧ h.cancelled = true := by
  cases s with
  | live hold =>
    rcases hold with free | stopping
    · simp [holding] at free
    · exact stopping.2
  | publishing e m hold => simp [holding] at hold
  | drainedOut e m out hold => simp [holding] at hold
  | drained e m out err hold => simp [holding] at hold
  | settled c stamp m hold => simp [holding] at hold

/-- A phase is left for good: a step keeps it, leaves `running`, or arrives at the last. -/
theorem Stands.phase_step (s : h.Stands) (step : Step h h') :
    h'.state.phase = h.state.phase ∨ h.state.phase = .running ∨ h'.state.phase = .consumed := by
  cases step with
  | claimReady free =>
    unfold Handle.claimReady
    split
    · exact Or.inr (Or.inr rfl)
    · exact Or.inl rfl
  | claimAndStop free =>
    unfold Handle.claimAndStop
    split
    · exact Or.inl rfl
    · exact Or.inl rfl
    · exact Or.inr (Or.inr rfl)
    · exact Or.inl rfl
  | stop holding =>
    have running := (s.running_of_stopping holding).1
    exact Or.inr (Or.inl (congrArg HandleState.phase running))
  | finish e held free => exact Or.inl (congrArg HandleState.phase (publish_state _ h))
  | drop left free => exact Or.inl (congrArg HandleState.phase (publish_state _ h))
  | install e out err stamp holding =>
    by_cases running : h.state.phase = .running
    · exact Or.inr (Or.inl running)
    · have dropped : (h.installTerminal ⟨out, err, e⟩ stamp).state = .ended stamp none := by
        unfold installTerminal
        cases state : h.state with
        | running => exact absurd (congrArg HandleState.phase state) running
        | stopping => rfl
        | ended stamp' result => rfl
      exact Or.inr (Or.inr (congrArg HandleState.phase dropped))
  | _ => exact Or.inl rfl

theorem cancelled_step (step : Step h h') (cancelled : h.cancelled = true) : h'.cancelled = true := by
  cases step with
  | strike => rfl
  | claimReady free =>
    unfold Handle.claimReady
    split <;> exact cancelled
  | claimAndStop free =>
    unfold Handle.claimAndStop
    split <;> first | rfl | exact cancelled
  | finish e held free => exact (publish_cancelled e h).trans cancelled
  | drop left free => exact (publish_cancelled _ h).trans cancelled
  | _ => exact cancelled

theorem Stands.consumed_step (s : h.Stands) (step : Step h h') (consumed : h.state.phase = .consumed) :
    h'.state.phase = .consumed := by
  rcases s.phase_step step with same | running | last
  · exact same.trans consumed
  · rw [consumed] at running
    cases running
  · exact last

theorem Stands.stopped_step (s : h.Stands) (step : Step h h') (stopped : h.Stopped) : h'.Stopped := by
  rcases stopped with consumed | ⟨stopping, cancelled⟩
  · exact Or.inl (s.consumed_step step consumed)
  · rcases s.phase_step step with same | running | last
    · exact Or.inr ⟨same.trans stopping, cancelled_step step cancelled⟩
    · rw [stopping] at running
      cases running
    · exact Or.inl last

theorem Stands.stopped_claimAndStop (s : h.Stands) (free : h.holder = .free) (ended : h.state ≠ .running) :
    h.claimAndStop.Stopped := by
  unfold Handle.claimAndStop
  split
  · next running => exact absurd running ended
  · next stopping =>
      rcases s.free free with ⟨live, _⟩ | ⟨c, stamp, m, over', _⟩
      · cases live with
        | running running => exact absurd running ended
        | stopping _ _ _ cancelled => exact Or.inr ⟨congrArg HandleState.phase stopping, cancelled⟩
      · cases over' with
        | ready state => simp [state] at stopping
        | claimed state => simp [state] at stopping
        | stopped state => simp [state] at stopping
  · exact Or.inl rfl
  · next consumed => exact Or.inl (congrArg HandleState.phase consumed)

theorem Stands.stopped_struck (s : h.Stands) (holding : h.holder = .stopping) : h.struck.Stopped :=
  Or.inr ⟨rfl, (s.running_of_stopping holding).2⟩

end Handle

namespace World

variable {w w' : World} {t : ℕ}

/-- A snapshot has every enrolled handle that was not consumed, in the order they enrolled. -/
def Whole (w : World) (s : Stop) : Prop :=
  s.kids.Sublist w.enrolled ∧ ∀ i ∈ w.enrolled, s.phases i ≠ .consumed → i ∈ s.kids

def Serves (w : World) (left : List ℕ) : Claimant → Prop
  | .refused i => i ∈ left ∨ (w.handle i).Stopped
  | .owner _ s => w.state = .closed ∧ w.Whole s ∧ ∀ i ∈ s.kids, i ∈ left ∨ (w.handle i).Stopped

/-- What a thread relies on where it is. -/
def Fits (w : World) (t : ℕ) : Task → Prop
  | .sweep (.push _) _ => w.lock = some t ∧ w.state = .open
  | .sweep (.close _) _ => w.lock = some t ∧ w.state = .closed
  | .children _ => w.state = .closed
  | .claim who left => w.Serves left who
  | .strike who i left => (w.handle i).holder = .stopping ∧ w.Serves (i :: left) who
  | _ => True

structure Sound (w : World) : Prop where
  stands : ∀ i, (w.handle i).Capped ∧ (w.handle i).Stands
  order : w.children.items.Sublist w.enrolled
  kept : ∀ i ∈ w.enrolled, i ∈ w.children.items ∨ (w.handle i).state.phase = .consumed
  fits : ∀ t, w.Fits t (w.task t)
  /-- No two threads have one handle's lock. -/
  apart : ∀ t t' who who' i left left', w.task t = .strike who i left → w.task t' = .strike who' i left' → t = t'
  stopped : ∀ c, ∀ s ∈ w.stops, w.Serves [] (.owner c s)
  refused : ∀ i ∈ w.refused, w.Serves [] (.refused i)

/-- Closed for good, and nothing claimed is let go. -/
structure Later (w w' : World) : Prop where
  closed : w.state = .closed → w'.state = .closed ∧ w'.enrolled = w.enrolled
  consumed : ∀ i, (w.handle i).state.phase = .consumed → (w'.handle i).state.phase = .consumed
  stopped : ∀ i, (w.handle i).Stopped → (w'.handle i).Stopped

theorem Later.refl (w : World) : Later w w := ⟨fun closed => ⟨closed, rfl⟩, fun _ h => h, fun _ h => h⟩

theorem Later.trans {w'' : World} (h : Later w w') (h' : Later w' w'') : Later w w'' where
  closed := fun closed =>
    have first := h.closed closed
    have last := h'.closed first.1
    ⟨last.1, last.2.trans first.2⟩
  consumed := fun i c => h'.consumed i (h.consumed i c)
  stopped := fun i c => h'.stopped i (h.stopped i c)

theorem later_of_handle (state : w'.state = w.state) (enrolled : w'.enrolled = w.enrolled)
    (handle : w'.handle = w.handle) : Later w w' where
  closed := fun closed => ⟨state.trans closed, enrolled⟩
  consumed := fun i c => by rw [handle]; exact c
  stopped := fun i c => by rw [handle]; exact c

theorem Later.goes {task : Task} (h : Later w w') : Later w (w'.goes t task) := ⟨h.closed, h.consumed, h.stopped⟩

theorem Serves.later {left : List ℕ} {who : Claimant} (h : w.Serves left who) (later : Later w w') :
    w'.Serves left who := by
  cases who with
  | refused i => exact h.imp id (later.stopped i)
  | owner c s =>
    have closed := later.closed h.1
    refine ⟨closed.1, ⟨?_, ?_⟩, fun i hi => (h.2.2 i hi).imp id (later.stopped i)⟩
    · rw [closed.2]
      exact h.2.1.1
    · rw [closed.2]
      exact h.2.1.2

theorem Fits.later {task : Task} (h : w.Fits t task) (later : Later w w')
    (lock : ∀ why cursor, task = .sweep why cursor → w.lock = some t → w'.lock = some t ∧ w'.state = w.state)
    (held : ∀ who i left, task = .strike who i left → (w'.handle i).holder = (w.handle i).holder) :
    w'.Fits t task := by
  cases task with
  | sweep why cursor =>
    cases why with
    | push i =>
      have kept := lock _ cursor rfl h.1
      exact ⟨kept.1, kept.2.trans h.2⟩
    | close c =>
      have kept := lock _ cursor rfl h.1
      exact ⟨kept.1, kept.2.trans h.2⟩
  | children c => exact (later.closed h).1
  | claim who left => exact Serves.later h later
  | strike who i left => exact ⟨(held who i left rfl).trans h.1, Serves.later h.2 later⟩
  | _ => trivial

/-! ## Moves -/

@[simp] theorem goes_self (w : World) (t : ℕ) (task : Task) : (w.goes t task).task t = task := by simp [goes]

theorem goes_of_ne (w : World) {t t' : ℕ} (task : Task) (ne : t' ≠ t) : (w.goes t task).task t' = w.task t' := by
  simp [goes, ne]

/-- A thread moves on to where it fits. -/
theorem Sound.goes {task : Task} (h : w.Sound) (own : w.Fits t task)
    (alone : ∀ who i left, task = .strike who i left → ¬ ∃ t' who' left', t' ≠ t ∧ w.task t' = .strike who' i left') :
    (w.goes t task).Sound where
  stands := h.stands
  order := h.order
  kept := h.kept
  fits := fun t' => by
    by_cases ne : t' = t
    · subst ne
      rw [goes_self]
      exact own
    · rw [goes_of_ne w task ne]
      exact h.fits t'
  apart := fun t₁ t₂ who who' i left left' h₁ h₂ => by
    by_cases ne₁ : t₁ = t
    · by_cases ne₂ : t₂ = t
      · exact ne₁.trans ne₂.symm
      · rw [ne₁, goes_self] at h₁
        rw [goes_of_ne w task ne₂] at h₂
        exact absurd ⟨t₂, who', left', ne₂, h₂⟩ (alone who i left h₁)
    · by_cases ne₂ : t₂ = t
      · rw [ne₂, goes_self] at h₂
        rw [goes_of_ne w task ne₁] at h₁
        exact absurd ⟨t₁, who, left, ne₁, h₁⟩ (alone who' i left' h₂)
      · rw [goes_of_ne w task ne₁] at h₁
        rw [goes_of_ne w task ne₂] at h₂
        exact h.apart t₁ t₂ who who' i left left' h₁ h₂
  stopped := h.stopped
  refused := h.refused

theorem Sound.locks (h : w.Sound) (free : w.lock = none) (t : ℕ) : { w with lock := some t }.Sound :=
  have fits : ∀ t', { w with lock := some t }.Fits t' (w.task t') := fun t' =>
    (h.fits t').later (later_of_handle rfl rfl rfl) (fun _ _ _ locked => by simp [free] at locked) fun _ _ _ _ => rfl
  { h with fits }

theorem Sound.unlocks (h : w.Sound) (off : ∀ t why cursor, w.lock = some t → w.task t ≠ .sweep why cursor) :
    { w with lock := none }.Sound :=
  have fits : ∀ t', { w with lock := none }.Fits t' (w.task t') := fun t' =>
    (h.fits t').later (later_of_handle rfl rfl rfl)
      (fun why cursor sweep locked => absurd sweep (off t' why cursor locked)) fun _ _ _ _ => rfl
  { h with fits }

theorem Sound.closes (h : w.Sound) (free : w.lock = none) : { w with state := .closed }.Sound :=
  have later : Later w { w with state := .closed } := ⟨fun _ => ⟨rfl, rfl⟩, fun _ c => c, fun _ c => c⟩
  { h with
    fits := fun t => (h.fits t).later later (fun _ _ _ locked => by simp [free] at locked) fun _ _ _ _ => rfl
    stopped := fun c s hs => (h.stopped c s hs).later later }

theorem Sound.forgets (h : w.Sound) {c : Compacting} (order : c.items.Sublist w.children.items)
    (gone : ∀ i ∈ w.children.items, i ∈ c.items ∨ (w.handle i).state.phase = .consumed) :
    { w with children := c }.Sound :=
  have kept : ∀ i ∈ w.enrolled, i ∈ c.items ∨ (w.handle i).state.phase = .consumed := fun i hi =>
    (h.kept i hi).elim (gone i) Or.inr
  { h with order := order.trans h.order, kept }

theorem Sound.push (h : w.Sound) (opened : w.state = .open) (i : ℕ) : (w.push i).Sound :=
  have later : Later w (w.push i) :=
    ⟨fun closed => by simp [opened] at closed, fun _ c => c, fun _ c => c⟩
  { stands := h.stands
    order := h.order.append (List.Sublist.refl [i])
    kept := fun j hj => by
      rcases List.mem_append.mp hj with old | new
      · exact (h.kept j old).imp (fun kept => List.mem_append.mpr (Or.inl kept)) id
      · exact Or.inl (List.mem_append.mpr (Or.inr new))
    fits := fun t => (h.fits t).later later (fun _ _ _ locked => ⟨locked, rfl⟩) fun _ _ _ _ => rfl
    apart := h.apart
    stopped := fun c s hs => (h.stopped c s hs).later later
    refused := h.refused }

theorem put_self (w : World) (i : ℕ) (h : Handle) : (w.put i h).handle i = h := by simp [put]

theorem put_of_ne (w : World) {i j : ℕ} (h : Handle) (ne : j ≠ i) : (w.put i h).handle j = w.handle j := by
  simp [put, ne]

theorem Sound.later_put (s : w.Sound) {i : ℕ} {h : Handle} (step : Handle.Step (w.handle i) h) :
    Later w (w.put i h) where
  closed := fun closed => ⟨closed, rfl⟩
  consumed := fun j consumed => by
    by_cases ne : j = i
    · subst ne
      rw [put_self]
      exact (s.stands j).2.consumed_step step consumed
    · rw [put_of_ne w h ne]
      exact consumed
  stopped := fun j stopped => by
    by_cases ne : j = i
    · subst ne
      rw [put_self]
      exact (s.stands j).2.stopped_step step stopped
    · rw [put_of_ne w h ne]
      exact stopped

/-- A step of a handle, whose lock no thread here loses by it. -/
theorem Sound.put (s : w.Sound) {i : ℕ} {h : Handle} (step : Handle.Step (w.handle i) h)
    (held : w.Strikes i → h.holder = (w.handle i).holder) : (w.put i h).Sound :=
  have later := s.later_put step
  { stands := fun j => by
      by_cases ne : j = i
      · subst ne
        rw [put_self]
        exact ⟨(s.stands j).1.step step, (s.stands j).2.step (s.stands j).1 step⟩
      · rw [put_of_ne w h ne]
        exact s.stands j
    order := s.order
    kept := fun j hj => (s.kept j hj).imp id (later.consumed j)
    fits := fun t => (s.fits t).later later (fun _ _ _ locked => ⟨locked, rfl⟩) fun who j left strikes => by
      by_cases ne : j = i
      · subst ne
        rw [put_self]
        exact held ⟨t, who, left, strikes⟩
      · rw [put_of_ne w h ne]
    apart := s.apart
    stopped := fun c stop hs => (s.stopped c stop hs).later later
    refused := fun j hj => (s.refused j hj).later later }

theorem Sound.moves {task : Task} (s : w.Sound) (own : w.Fits t task)
    (calm : ∀ who i left, task ≠ .strike who i left) : (w.goes t task).Sound :=
  s.goes own fun who i left eq => absurd eq (calm who i left)

theorem after_calm (c : Call) (who : Claimant) (i : ℕ) (left : List ℕ) : c.after ≠ .strike who i left := by
  cases c <;> exact fun eq => nomatch eq

theorem after_swept (c : Call) (why : Sweep) (cursor : ℕ) : c.after ≠ .sweep why cursor := by
  cases c <;> exact fun eq => nomatch eq

theorem fits_after (closed : w.state = .closed) (c : Call) : w.Fits t c.after := by
  cases c with
  | close => trivial
  | _ => exact closed

/-! ## Steps -/

theorem Sound.takeIn (s : w.Sound) {i : ℕ} (free : w.lock = none) (opened : w.state = .open) :
    (w.takeIn t i).Sound ∧ Later w (w.takeIn t i) := by
  unfold World.takeIn
  split
  · exact ⟨(s.locks free t).moves ⟨rfl, opened⟩ (fun _ _ _ eq => nomatch eq), later_of_handle rfl rfl rfl⟩
  · refine ⟨(s.push opened i).moves trivial (fun _ _ _ eq => nomatch eq), ?_⟩
    exact ⟨fun closed => by simp [opened] at closed, fun _ c => c, fun _ c => c⟩

theorem Sound.close (s : w.Sound) {c : Call} (free : w.lock = none) :
    (w.close t c).Sound ∧ Later w (w.close t c) := by
  unfold World.close
  split
  · refine ⟨((s.closes free).locks free t).moves ⟨rfl, rfl⟩ (fun _ _ _ eq => nomatch eq), ?_⟩
    exact ⟨fun _ => ⟨rfl, rfl⟩, fun _ c => c, fun _ c => c⟩
  · next closed => exact ⟨s.moves (fits_after closed c) (after_calm c), later_of_handle rfl rfl rfl⟩

theorem Sound.sample (s : w.Sound) {why : Sweep} {cursor i : ℕ} {p : Phase} (there : w.task t = .sweep why cursor)
    (next : w.children.items[cursor]? = some i) (sample : Handle.Sample (w.handle i) p) :
    (w.sample t why cursor p).Sound ∧ Later w (w.sample t why cursor p) := by
  refine ⟨?_, later_of_handle rfl rfl rfl⟩
  have own : ∀ cursor', w.Fits t (.sweep why cursor') := fun cursor' => by
    have fits := s.fits t
    rw [there] at fits
    cases why <;> exact fits
  have forgotten : { w with children := w.children.observe cursor p }.Sound := by
    cases sample with
    | taken free =>
      unfold Compacting.observe
      split
      · next consumed =>
          refine s.forgets (List.eraseIdx_sublist _ _) fun j hj => ?_
          by_cases same : j = i
          · exact Or.inr (same ▸ consumed)
          · refine Or.inl ?_
            obtain ⟨k, at'⟩ := List.mem_iff_getElem?.mp hj
            refine List.mem_eraseIdx_iff_getElem?.mpr ⟨k, fun eq => same ?_, at'⟩
            rw [eq, next] at at'
            exact (Option.some.inj at').symm
      · exact s.forgets (List.Sublist.refl _) fun j hj => Or.inl hj
  exact forgotten.moves (own _) fun _ _ _ eq => nomatch eq

theorem Sound.sweep (s : w.Sound) {why : Sweep} {cursor : ℕ} (there : w.task t = .sweep why cursor) :
    (w.sweep t why).Sound ∧ Later w (w.sweep t why) := by
  have fits := s.fits t
  rw [there] at fits
  -- The thread leaves its sweep, lets go of the lock, and only then has the list as swept.
  have left : ∀ task, w.Fits t task → (∀ who i left, task ≠ .strike who i left) →
      (∀ why cursor, task ≠ .sweep why cursor) → w.lock = some t →
      ({ w with children := w.children.swept, lock := none }.goes t task).Sound := by
    intro task own calm off locked
    have away : ∀ t' why cursor, w.lock = some t' → (w.goes t task).task t' ≠ .sweep why cursor := by
      intro t' why cursor locked'
      rw [locked] at locked'
      cases locked'
      rw [goes_self]
      exact off why cursor
    exact ((s.moves own calm).unlocks away).forgets (List.Sublist.refl _) fun j hj => Or.inl hj
  cases why with
  | push i =>
    have idle := left .idle trivial (fun _ _ _ eq => nomatch eq) (fun _ _ eq => nomatch eq) fits.1
    refine ⟨idle.push fits.2 i, ?_⟩
    exact ⟨fun closed => by simp [fits.2] at closed, fun _ c => c, fun _ c => c⟩
  | close c =>
    exact ⟨left c.after (fits_after fits.2 c) (after_calm c) (after_swept c) fits.1, later_of_handle rfl rfl rfl⟩

theorem Sound.snapshot (s : w.Sound) {c : Call} (there : w.task t = .children c) :
    (w.snapshot t c).Sound ∧ Later w (w.snapshot t c) := by
  have closed := s.fits t
  rw [there] at closed
  have whole : w.Whole ⟨w.children.items, fun i => (w.handle i).state.phase⟩ :=
    ⟨s.order, fun i hi live => (s.kept i hi).resolve_right live⟩
  exact ⟨s.moves ⟨closed, whole, fun i hi => Or.inl hi⟩ (fun _ _ _ eq => nomatch eq), later_of_handle rfl rfl rfl⟩

theorem Sound.unstruck (s : w.Sound) {i : ℕ} (free : (w.handle i).holder = .free) : ¬ w.Strikes i := by
  intro ⟨t, who, left, strikes⟩
  have fits := s.fits t
  rw [strikes] at fits
  have holding := fits.1
  simp [free] at holding

theorem Serves.claimed {who : Claimant} {i : ℕ} {left : List ℕ} (h : w.Serves (i :: left) who)
    (stopped : (w.handle i).Stopped) : w.Serves left who := by
  have rest : ∀ j, j ∈ i :: left ∨ (w.handle j).Stopped → j ∈ left ∨ (w.handle j).Stopped := by
    intro j hj
    rcases hj with first | done
    · rcases List.mem_cons.mp first with rfl | later
      · exact Or.inr stopped
      · exact Or.inl later
    · exact Or.inr done
  cases who with
  | refused j => exact rest j h
  | owner c s => exact ⟨h.1, h.2.1, fun j hj => rest j (h.2.2 j hj)⟩

theorem Sound.claim (s : w.Sound) {who : Claimant} {i : ℕ} {left : List ℕ}
    (there : w.task t = .claim who (i :: left)) (free : (w.handle i).holder = .free) :
    (w.claim t who i left).Sound ∧ Later w (w.claim t who i left) := by
  have step : Handle.Step (w.handle i) (w.handle i).claimAndStop := .claimAndStop _ free
  have later := s.later_put step
  have put := s.put step fun struck => absurd struck (s.unstruck free)
  have serves := s.fits t
  rw [there] at serves
  have serves' : (w.put i (w.handle i).claimAndStop).Serves (i :: left) who := Serves.later serves later
  unfold World.claim
  split
  · next running =>
      refine ⟨put.goes ⟨?_, serves'⟩ ?_, later.goes⟩
      · rw [put_self]
        unfold Handle.claimAndStop
        rw [running]
      · intro who' j left' eq ⟨t', who'', left'', _, strikes⟩
        cases eq
        exact s.unstruck free ⟨t', who'', left'', strikes⟩
  · next ended =>
      refine ⟨put.moves (serves'.claimed ?_) (fun _ _ _ eq => nomatch eq), later.goes⟩
      rw [put_self]
      exact (s.stands i).2.stopped_claimAndStop free fun running => ended running

theorem Sound.strike (s : w.Sound) {who : Claimant} {i : ℕ} {left : List ℕ}
    (there : w.task t = .strike who i left) :
    (w.strike t who i left).Sound ∧ Later w (w.strike t who i left) := by
  have fits := s.fits t
  rw [there] at fits
  have step : Handle.Step (w.handle i) (w.handle i).struck := .stop _ fits.1
  have later := s.later_put step
  refine ⟨?_, later.goes⟩
  -- The thread's own lock is the only one on that handle.
  have back : (w.goes t (.claim who (i :: left))).Sound := s.moves fits.2 fun _ _ _ eq => nomatch eq
  have alone : ¬ (w.goes t (.claim who (i :: left))).Strikes i := by
    intro ⟨t', who', left', strikes⟩
    by_cases same : t' = t
    · rw [same, goes_self] at strikes
      cases strikes
    · rw [goes_of_ne w _ same] at strikes
      exact same (s.apart t' t who' who i left' left strikes there)
  have put := back.put step fun struck => absurd struck alone
  have serves : ((w.goes t (.claim who (i :: left))).put i (w.handle i).struck).Serves (i :: left) who :=
    Serves.later (w := w.goes t (.claim who (i :: left))) fits.2 (back.later_put step)
  have stopped : ((w.goes t (.claim who (i :: left))).put i (w.handle i).struck |>.handle i).Stopped := by
    rw [put_self]
    exact (s.stands i).2.stopped_struck fits.1
  have own : ((w.goes t (.claim who (i :: left))).put i (w.handle i).struck).Fits t (.claim who left) :=
    serves.claimed stopped
  have done := put.moves own fun _ _ _ eq => nomatch eq
  have same : ((w.goes t (.claim who (i :: left))).put i (w.handle i).struck).goes t (.claim who left) =
      w.strike t who i left := by
    simp [World.strike, World.goes, World.put]
  rw [← same]
  exact done

theorem Sound.through (s : w.Sound) {who : Claimant} (there : w.task t = .claim who []) :
    (w.through t who).Sound ∧ Later w (w.through t who) := by
  have serves := s.fits t
  rw [there] at serves
  cases who with
  | refused i =>
    have noted : ∀ j ∈ w.refused ++ [i], w.Serves [] (.refused j) := by
      intro j hj
      rcases List.mem_append.mp hj with old | new
      · exact s.refused j old
      · rw [List.mem_singleton.mp new]
        exact serves
    have told : { w with refused := w.refused ++ [i] }.Sound := { s with refused := noted }
    exact ⟨told.moves trivial (fun _ _ _ eq => nomatch eq), later_of_handle rfl rfl rfl⟩
  | owner c stop =>
    have noted : ∀ c', ∀ s' ∈ w.stops ++ [stop], w.Serves [] (.owner c' s') := by
      intro c' s' hs
      rcases List.mem_append.mp hs with old | new
      · exact s.stopped c' s' old
      · rw [List.mem_singleton.mp new]
        exact serves
    have told : { w with stops := w.stops ++ [stop] }.Sound := { s with stopped := noted }
    cases c with
    | «end» => exact ⟨told.moves trivial (fun _ _ _ eq => nomatch eq), later_of_handle rfl rfl rfl⟩
    | _ => exact ⟨told.moves trivial (fun _ _ _ eq => nomatch eq), later_of_handle rfl rfl rfl⟩

theorem Sound.step (s : w.Sound) (step : Step w w') : w'.Sound ∧ Later w w' := by
  cases step with
  | handle i h step held => exact ⟨s.put step held, s.later_put step⟩
  | enrol t i _ => exact ⟨s.moves trivial (fun _ _ _ eq => nomatch eq), later_of_handle rfl rfl rfl⟩
  | call t c _ => exact ⟨s.moves trivial (fun _ _ _ eq => nomatch eq), later_of_handle rfl rfl rfl⟩
  | takeIn t i _ free opened => exact s.takeIn free opened
  | refuse t i _ _ _ =>
    exact ⟨s.moves (Or.inl (List.mem_singleton_self i)) (fun _ _ _ eq => nomatch eq), later_of_handle rfl rfl rfl⟩
  | close t c _ free => exact s.close free
  | sample t why cursor i p there next sample => exact s.sample there next sample
  | sweep t why cursor there _ => exact s.sweep there
  | children t c there _ => exact s.snapshot there
  | claim t who i left there free => exact s.claim there free
  | strike t who i left there => exact s.strike there
  | through t who there => exact s.through there
  | drain t _ _ => exact ⟨s.moves trivial (fun _ _ _ eq => nomatch eq), later_of_handle rfl rfl rfl⟩
  | waited t kids _ => exact ⟨s.moves trivial (fun _ _ _ eq => nomatch eq), later_of_handle rfl rfl rfl⟩

theorem sound_new (title : ℕ → String) : (new title).Sound where
  stands := fun i => ⟨Handle.capped_fresh _, Handle.stands_fresh _⟩
  order := List.Sublist.refl []
  kept := by simp [new]
  fits := fun _ => trivial
  apart := by simp [new]
  stopped := by simp [new]
  refused := by simp [new]

theorem sound_run (s : w.Sound) (run : Runs w w') : w'.Sound ∧ Later w w' := by
  induction run with
  | refl => exact ⟨s, .refl w⟩
  | tail _ step ih =>
    have last := ih.1.step step
    exact ⟨last.1, ih.2.trans last.2⟩

/-- What is owed to every child, wherever the threads are. -/
structure Owned (w : World) : Prop where
  retained : w.children.items.Sublist w.enrolled
  forgotten : ∀ i ∈ w.enrolled, i ∉ w.children.items → (w.handle i).state.phase = .consumed
  /-- A round of stopping had every child that was not consumed, in that order, and left none
  of them running. -/
  stopped : ∀ s ∈ w.stops, s.kids.Sublist w.enrolled ∧
    (∀ i ∈ w.enrolled, s.phases i ≠ .consumed → i ∈ s.kids) ∧ ∀ i ∈ s.kids, (w.handle i).Stopped
  refused : ∀ i ∈ w.refused, (w.handle i).Stopped
  closed : w.state = .closed → ∀ w', Runs w w' → w'.state = .closed ∧ w'.enrolled = w.enrolled

/-- No child outlives its owner's closing unseen. -/
theorem children_are_owned (title : ℕ → String) (run : Runs (new title) w) : w.Owned := by
  have sound := (sound_run (sound_new title) run).1
  exact {
    retained := sound.order
    forgotten := fun i hi gone => (sound.kept i hi).resolve_left gone
    stopped := fun s hs => by
      have serves := sound.stopped .stop s hs
      exact ⟨serves.2.1.1, serves.2.1.2, fun i hi => (serves.2.2 i hi).resolve_left List.not_mem_nil⟩
    refused := fun i hi => (sound.refused i hi).resolve_left List.not_mem_nil
    closed := fun closed w' run' => (sound_run sound run').2.closed closed }

/-- One child is stopped by its owner, the next refused. -/
theorem children_are_owned_stop :
    ∃ w : World, w.stops.map Stop.kids = [[0]] ∧ w.refused = [1] ∧ w.Owned := by
  have run : Runs (new fun _ => "") _ := .refl
  have run := run.tail (.enrol _ 0 0 rfl)
  have run := run.tail (.takeIn _ 0 0 rfl rfl rfl)
  have run := run.tail (.call _ 1 .stop rfl)
  have run := run.tail (.enrol _ 0 1 rfl)
  have run := run.tail (.close _ 1 .stop rfl rfl)
  have run := run.tail (.sample _ 1 (.close .stop) 0 0 .running rfl rfl (.taken _ rfl))
  have run := run.tail (.sweep _ 1 (.close .stop) 1 rfl rfl)
  have run := run.tail (.refuse _ 0 1 rfl rfl rfl)
  have run := run.tail (.children _ 1 .stop rfl rfl)
  have run := run.tail (.claim _ 1 _ 0 [] rfl rfl)
  have run := run.tail (.claim _ 0 (.refused 1) 1 [] rfl rfl)
  have run := run.tail (.strike _ 0 (.refused 1) 1 [] rfl)
  have run := run.tail (.strike _ 1 _ 0 [] rfl)
  have run := run.tail (.through _ 0 (.refused 1) rfl)
  have run := run.tail (.through _ 1 _ rfl)
  exact ⟨_, rfl, rfl, children_are_owned _ run⟩

end World

end Ral.Worker
