import Ral.Schedule.Horizon
import Ral.Schedule.Once

/-! # Alarms over a life

The owner books, cancels and answers rings between whatever else happens to its cell. A report
or a clear retires the bookings in one transaction and the timers after it.
-/

namespace Ral.Schedule
open Ral.Data
open Ral.Mailbox (ScheduleId Shared Txn Fault Folds Books Aside wakeups gained)
open Run (Ends Sat)

/-! ## The owner's thread -/

def Bench.transact {α : Type} (x : Act α) (b : Bench) : Except Fault α × Bench :=
  if b.shared.poisoned then (.error .unavailable, { b with shared := b.shared.latched })
  else match x b with
    | some (.error .panicked, b') => (.error .panicked, { b' with shared := { b'.shared with poisoned := true } })
    | some (r, b') => (r, b')
    | none => (.error .panicked, b)

structure Watch where
  world : Mailbox.World
  registry : ScheduleRegistry
  fired : List Firing
  retiring : Bool

inductive Turn
  /-- What the registry has no part in; an alarm may ring at any time, late or for what is gone. -/
  | other (event : Mailbox.Event)
  | schedule (now : Timestamp) (trigger : Trigger) (prompt label : String) (ok : Bool)
  | unschedule (label : String) (ok : Bool)
  | fire (now : Timestamp) (device : String → Bool)
  | clear (ok : Bool)
  | report (status : Mailbox.ChildStatus) (ok synced : Bool)
  | cleared
  | teardown
  | lastReport (reason : String) (ok synced : Bool)
  | unwind

namespace Watch

def bench (w : Watch) : Bench := ⟨w.world.shared, w.registry, w.fired⟩

def put (w : Watch) (b : Bench) : Watch :=
  { w with world := { w.world with shared := b.shared }, registry := b.registry, fired := b.fired }

def attends (w : Watch) : Bool := w.world.phase = .attending && w.world.shared.owned && !w.retiring

def own {α : Type} (w : Watch) (x : Act α) : Watch := if w.attends then w.put (w.bench.transact x).2 else w

section
variable [Mailbox.Wording]

def retire (w : Watch) (event : Mailbox.Event) : Watch :=
  if w.attends then { w with world := (w.world.step event).2, retiring := true } else w

variable [Clock]

def step (w : Watch) : Turn → Watch
  | .other event => if event.isAside then { w with world := (w.world.step event).2 } else w
  | .schedule now trigger prompt label ok => w.own (schedule now trigger prompt label ok)
  | .unschedule label ok => w.own (unschedule label ok)
  | .fire now device => w.own (fire now device)
  | .clear ok => w.retire (.clear ok)
  | .report status ok synced => w.retire (.report status ok synced)
  | .cleared => if w.retiring then { w with registry := w.registry.clear, retiring := false } else w
  | .teardown =>
    if w.attends then { w with world := (w.world.step .teardown).2, registry := w.registry.clear } else w
  | .lastReport reason ok synced => { w with world := (w.world.step (.lastReport reason ok synced)).2 }
  | .unwind =>
    if w.world.shared.owned then
      { w with world := (w.world.step .unwind).2, registry := w.registry.clear, retiring := false }
    else w

def run (w : Watch) (turns : List Turn) : Watch := turns.foldl step w

theorem run_append (w : Watch) (xs ys : List Turn) : w.run (xs ++ ys) = (w.run xs).run ys := List.foldl_append

end

def birth (b : Mailbox.Birth) : Watch := ⟨b.world, .new, [], false⟩

/-! ## The invariant -/

structure Good [Clock] [Mailbox.Wording] (seed : Folds) (w : Watch) : Prop where
  kept : w.bench.Kept seed
  closed : w.world.phase ≠ .attending → w.registry.byLabel.entries = []
  agree : w.world.phase = .attending → w.retiring = false → w.bench.Agree ∨ w.bench.Spent
  retired : w.retiring = true → w.world.shared.schedules = SortedMap.empty ∨ w.world.shared.journal.failed = true

/-- What a turn leaves: the invariant, and an id that no timer bears as it was. -/
structure Steps [Clock] [Mailbox.Wording] (seed : Folds) (w w' : Watch) : Prop where
  good : w'.Good seed
  nextId : w.registry.nextId ≤ w'.registry.nextId
  gone : ∀ id < w.registry.nextId, ¬ w.bench.Borne id → ¬ w'.bench.Borne id ∧ w'.bench.postedAs id = w.bench.postedAs id

section
variable [Clock] [Mailbox.Wording] {seed : Folds} {w w' : Watch}

theorem Steps.refl (h : w.Good seed) : w.Steps seed w := ⟨h, le_refl _, fun _ _ hnot => ⟨hnot, rfl⟩⟩

theorem Steps.trans {u : Watch} (h : w.Steps seed w') (h' : w'.Steps seed u) : w.Steps seed u where
  good := h'.good
  nextId := h.nextId.trans h'.nextId
  gone id hid hnot := by
    obtain ⟨hnot', hsame⟩ := h.gone id hid hnot
    obtain ⟨hnot'', hsame'⟩ := h'.gone id (hid.trans_le h.nextId) hnot'
    exact ⟨hnot'', hsame'.trans hsame⟩

/-! ## The owner's turns -/

omit [Clock] [Mailbox.Wording] in
theorem transact_of_ends {α : Type} {x : Act α} {b : Bench} {P : Except Fault α → Bench → Prop}
    (hsound : b.shared.poisoned = false) (h : Ends x b P) (hP : ∀ r b', P r b' → r ≠ .error .panicked) :
    P (b.transact x).1 (b.transact x).2 := by
  obtain ⟨r, b', hx, hr⟩ := h
  have hne := hP r b' hr
  unfold Bench.transact
  rw [if_neg (by simp [hsound]), hx]
  match r with
  | .ok _ => exact hr
  | .error .unavailable => exact hr
  | .error .ended => exact hr
  | .error .resting => exact hr
  | .error .panicked => exact absurd rfl hne

omit [Clock] [Mailbox.Wording] in
theorem attends_iff : w.attends = true ↔
    w.world.phase = .attending ∧ w.world.shared.owned = true ∧ w.retiring = false := by
  simp [attends, and_assoc]

theorem Steps.put (h : w.Good seed) (hattends : w.attends = true) {b : Bench} (hmoves : w.bench.Moves seed b) :
    w.Steps seed (w.put b) := by
  obtain ⟨hphase, _, hretiring⟩ := attends_iff.mp hattends
  refine ⟨⟨hmoves.kept, fun hne => absurd hphase hne, fun _ _ => ?_, fun hon => ?_⟩, hmoves.nextId, hmoves.gone⟩
  · exact (h.agree hphase hretiring).imp hmoves.agree hmoves.spent
  · exact absurd (hretiring.symm.trans hon) Bool.false_ne_true

theorem Steps.own (h : w.Good seed) {α : Type} {x : Act α} (hx : Ends x w.bench (Ended seed w.bench)) :
    w.Steps seed (w.own x) := by
  unfold Watch.own
  split
  · next hattends =>
      exact .put h hattends (transact_of_ends h.kept.well.sound hx fun _ _ hended => hended.1).2
  · exact .refl h

/-! ## Everyone's turns -/

theorem Steps.aside (h : w.Good seed) {world : Mailbox.World} (well : world.shared.Well seed)
    (haside : Aside w.world.shared world.shared) (hphase : world.phase = .attending ↔ w.world.phase = .attending) :
    w.Steps seed { w with world } := by
  have hmoves := Bench.Moves.aside h.kept well haside
  refine ⟨⟨hmoves.kept, ?_, ?_, ?_⟩, hmoves.nextId, hmoves.gone⟩
  · exact fun hne => h.closed fun hattending => hne (hphase.mpr hattending)
  · exact fun hattending hrest => (h.agree (hphase.mp hattending) hrest).imp hmoves.agree hmoves.spent
  · intro hretiring
    show world.shared.schedules = _ ∨ _
    rw [haside.schedules]
    exact (h.retired hretiring).imp_right haside.latch

theorem kept_retires (h : w.Good seed) {s : Shared} (well : s.Well seed) (hretires : Mailbox.Retires w.world.shared s) :
    Bench.Kept seed ⟨s, w.registry, w.fired⟩ := by
  refine h.kept.fewer well hretires.wakeups (fun ht => ht) ?_ rfl rfl
  intro label t b _ hb
  have hbooked : s.schedules.get label = some b := hb
  rcases hretires.schedules with hempty | ⟨hsame, _⟩
  · rw [hempty] at hbooked
    cases hbooked
  · rw [hsame] at hbooked
    exact hbooked

theorem Steps.retired (h : w.Good seed) {world : Mailbox.World} (well : world.shared.Well seed)
    (hretires : Mailbox.Retires w.world.shared world.shared) (hphase : world.phase = w.world.phase) :
    w.Steps seed { w with world, retiring := true } := by
  refine ⟨⟨kept_retires h well hretires, ?_, fun _ hrest => (nomatch hrest), fun _ => ?_⟩, le_refl _,
    fun _ _ hnot => ⟨hnot, rfl⟩⟩
  · rw [show ({ w with world, retiring := true } : Watch).world.phase = w.world.phase from hphase]
    exact h.closed
  · exact hretires.schedules.imp_right And.right

theorem Steps.emptied (h : w.Good seed) {world : Mailbox.World} (well : world.shared.Well seed)
    (hqueued : (wakeups world.shared.cell.queue).Sublist (wakeups w.world.shared.cell.queue)) {retiring : Bool}
    (hagree : world.phase = .attending → world.shared.schedules = SortedMap.empty ∨ world.shared.journal.failed = true)
    (hretiring : retiring = true →
      world.shared.schedules = SortedMap.empty ∨ world.shared.journal.failed = true) :
    w.Steps seed ⟨world, w.registry.clear, w.fired, retiring⟩ := by
  have hnone {label : String} {t : Timer} (ht : (w.registry.clear).byLabel.get label = some t) : False := nomatch ht
  refine ⟨⟨?_, fun _ => rfl, fun hattending _ => ?_, hretiring⟩, le_refl _, fun _ _ _ => ⟨?_, rfl⟩⟩
  · exact h.kept.fewer well hqueued (fun ht => (hnone ht).elim) (fun ht _ => (hnone ht).elim) rfl rfl
  · rcases hagree hattending with hempty | hfailed
    · refine Or.inl fun label => ?_
      show _ = (world.shared.schedules.get label).map _
      rw [hempty]
      rfl
    · exact Or.inr ⟨rfl, hfailed⟩
  · rintro ⟨label, t, ht, _⟩
    exact hnone ht

omit [Clock] in
/-- Who attends does so until teardown or an unwinding. -/
theorem phase_aside {world : Mailbox.World} {event : Mailbox.Event} (hevent : event.isAside = true) :
    (world.step event).2.phase = .attending ↔ world.phase = .attending := by
  have hown {α : Type} (x : Txn α) (answer : α → Mailbox.Answer) : (world.own x answer).2.phase = world.phase := by
    unfold Mailbox.World.own
    split <;> rfl
  cases event with
  | begin ok => rw [show (world.step (.begin ok)).2.phase = _ from hown _ _]
  | next pending expired ok => rw [show (world.step (.next pending expired ok)).2.phase = _ from hown _ _]
  | drain ok => rw [show (world.step (.drain ok)).2.phase = _ from hown _ _]
  | ring label id =>
    simp only [Mailbox.World.step]
    split <;> exact Iff.rfl
  | append ok =>
    simp only [Mailbox.World.step]
    split <;> exact Iff.rfl
  | sync synced =>
    simp only [Mailbox.World.step]
    split <;> exact Iff.rfl
  | settle =>
    simp only [Mailbox.World.step]
    split
    · next hended =>
        rw [hended]
        dsimp only
        split <;> split <;> simp
    · exact Iff.rfl
  | drop =>
    simp only [Mailbox.World.step]
    split
    · next htorn =>
        have hphase : world.phase = .torndown := by
          simp only [Bool.and_eq_true, decide_eq_true_eq] at htorn
          exact htorn.1
        rw [hphase]
    · exact Iff.rfl
  | post _ _ | gone _ | recallTexts _ | stopCurrent | stop _ _ | release | endLife | changeModel _ _ | narrow _ _ _
  | cancelExchange => exact Iff.rfl
  | _ => cases hevent

omit [Clock] in
theorem well_aside {world : Mailbox.World} (hwell : world.shared.Well seed) {event : Mailbox.Event}
    (hevent : event.isAside = true) :
    (world.step event).2.shared.Well seed ∧ Aside world.shared (world.step event).2.shared := by
  have hpanic : ∀ left, event ≠ .panic left := by
    rintro left rfl
    cases hevent
  obtain ⟨hr, heffect⟩ := Mailbox.step_stepped (w := world) (fun _ => hwell.replays) event hpanic
  have haside := Mailbox.step_aside hevent hr
  have hsound := haside.poisoned.trans hwell.sound
  exact ⟨⟨hsound, heffect.sound hsound⟩, haside⟩

omit [Clock] in
theorem well_reportAt {s : Shared} (hwell : s.Well seed) (status : Mailbox.ChildStatus) (ok synced : Bool) :
    (s.reportAt status ok synced).2.Well seed ∧ Mailbox.Retires s (s.reportAt status ok synced).2 := by
  unfold Mailbox.Shared.reportAt
  rw [if_neg (by simp [hwell.sound])]
  obtain ⟨r, t, hx, hne, hreports⟩ := Mailbox.report_reports hwell.replays status ok synced
  have hretires := Mailbox.report_retires hwell.replays status ok synced r t hx hne
  have hends : Ends (Mailbox.report status ok synced) s fun r t =>
      r ≠ .error .panicked ∧ t.Well seed ∧ Mailbox.Retires s t :=
    ⟨r, t, hx, hne, ⟨hreports.filed.poisoned.trans hwell.sound, hreports.filed.replays⟩, hretires⟩
  exact (Mailbox.transact_of_ends hwell.sound hends fun _ _ h => h.1).2

omit [Clock] in
theorem well_clear {s : Shared} (hwell : s.Well seed) (ok : Bool) :
    (s.transact (Mailbox.clear ok)).2.Well seed ∧ Mailbox.Retires s (s.transact (Mailbox.clear ok)).2 := by
  obtain ⟨r, t, hx, hquiet⟩ : Ends (Mailbox.clear ok) s (Mailbox.Quiet seed s) :=
    Mailbox.clear_quiet hwell.replays
  obtain ⟨hne, hleft⟩ := hquiet.well hwell
  have hends : Ends (Mailbox.clear ok) s fun r t => r ≠ .error .panicked ∧ t.Well seed ∧ Mailbox.Retires s t :=
    ⟨r, t, hx, hne, hleft, Mailbox.clear_retires hwell.replays ok r t hx hne⟩
  exact (Mailbox.transact_of_ends hwell.sound hends fun _ _ h => h.1).2

/-- One turn, whoever's. -/
theorem step_steps (h : w.Good seed) (turn : Turn) : w.Steps seed (w.step turn) := by
  cases turn with
  | other event =>
    simp only [step]
    split
    · next hevent =>
        obtain ⟨hwell, haside⟩ := well_aside h.kept.well hevent
        exact .aside h hwell haside (phase_aside hevent)
    · exact .refl h
  | schedule now trigger prompt label ok => exact .own h (schedule_ended h.kept now trigger prompt label ok)
  | unschedule label ok => exact .own h ((unschedule_ended h.kept label ok).mono fun _ _ hspec => hspec.1)
  | fire now device => exact .own h (fire_ended h.kept now device)
  | clear ok =>
    simp only [step, retire]
    split
    · obtain ⟨hwell, hretires⟩ := well_clear h.kept.well ok
      exact .retired h hwell hretires rfl
    · exact .refl h
  | report status ok synced =>
    simp only [step, retire]
    split
    · obtain ⟨hwell, hretires⟩ := well_reportAt h.kept.well status ok synced
      exact .retired h hwell hretires rfl
    · exact .refl h
  | cleared =>
    simp only [step]
    split
    · next hretiring =>
        exact .emptied h h.kept.well (.refl _) (fun _ => h.retired hretiring) fun hon => by cases hon
    · exact .refl h
  | teardown =>
    simp only [step]
    split
    · next hattends =>
        obtain ⟨hphase, howned, hrest⟩ := attends_iff.mp hattends
        have haside := Mailbox.transact_aside Mailbox.endLife_aside (s := w.world.shared)
          (Mailbox.quiet_effect (fun _ => h.kept.well.replays) fun hreplays => Mailbox.endLife_quiet hreplays).1
        obtain ⟨_, hwell⟩ := Mailbox.transact_of_ends h.kept.well.sound
          ((Mailbox.endLife_quiet h.kept.well.replays).mono fun _ _ hquiet => hquiet.well h.kept.well) fun _ _ h => h.1
        have hstep : (w.world.step .teardown).2 = ⟨(w.world.shared.transact Mailbox.endLife).2, .ended⟩ := by
          simp [Mailbox.World.step, hphase, howned]
        rw [hstep]
        exact .emptied h hwell haside.wakeups (fun hattending => by cases hattending)
          fun hon => absurd (hrest.symm.trans hon) Bool.false_ne_true
    · exact .refl h
  | lastReport reason ok synced =>
    simp only [step, Mailbox.World.step]
    split
    · next hphase =>
        obtain ⟨hwell, hretires⟩ := well_reportAt h.kept.well (.failed reason) ok synced
        have hended : w.world.phase ≠ .attending := by
          intro hattending
          simp [hattending] at hphase
        refine ⟨⟨kept_retires h hwell hretires, fun _ => h.closed hended, fun hattending => (by cases hattending),
          fun _ => hretires.schedules.imp_right And.right⟩, le_refl _, fun _ _ hnot => ⟨hnot, rfl⟩⟩
    · exact .refl h
  | unwind =>
    simp only [step]
    split
    · next howned =>
        have hstep : (w.world.step .unwind).2 = ⟨w.world.shared.dropped, .unwound⟩ := by
          simp [Mailbox.World.step, howned]
        rw [hstep]
        have hsound : w.world.shared.dropped.poisoned = false :=
          (Mailbox.dropped_aside _).poisoned.trans h.kept.well.sound
        have hreplays := (Mailbox.dropped_effect (fun _ => h.kept.well.replays)).sound hsound
        exact .emptied h ⟨hsound, hreplays⟩ (Mailbox.dropped_aside _).wakeups (fun hattending => by cases hattending)
          fun hon => by cases hon
    · exact .refl h

/-- Timers and bookings that agree still do at the owner's next rest: only a report or a clear, after
which it is not at rest, may part them. -/
theorem step_agree (h : w.Good seed) (turn : Turn) (hattends : w.attends = true) (hagree : w.bench.Agree)
    (hnext : (w.step turn).attends = true) : (w.step turn).bench.Agree := by
  obtain ⟨hphase, howned, hrest⟩ := attends_iff.mp hattends
  have hown {α : Type} {x : Act α} (hx : Ends x w.bench (Ended seed w.bench)) : (w.own x).bench.Agree := by
    have hended := transact_of_ends h.kept.well.sound hx fun _ _ hended => hended.1
    rw [show w.own x = w.put (w.bench.transact x).2 from if_pos hattends]
    exact hended.2.agree hagree
  have hretire (event : Mailbox.Event) (hon : (w.retire event).attends = true) : (w.retire event).bench.Agree := by
    unfold retire at hon
    rw [if_pos hattends] at hon
    cases (attends_iff.mp hon).2.2
  cases turn with
  | other event =>
    simp only [step]
    split
    · next hevent =>
        obtain ⟨hwell, haside⟩ := well_aside h.kept.well hevent
        exact (Bench.Moves.aside h.kept hwell haside).agree hagree
    · exact hagree
  | schedule now trigger prompt label ok => exact hown (schedule_ended h.kept now trigger prompt label ok)
  | unschedule label ok => exact hown ((unschedule_ended h.kept label ok).mono fun _ _ hspec => hspec.1)
  | fire now device => exact hown (fire_ended h.kept now device)
  | clear ok => exact hretire _ hnext
  | report status ok synced => exact hretire _ hnext
  | cleared =>
    have hsame : w.step .cleared = w := if_neg (by simp [hrest])
    rw [hsame]
    exact hagree
  | teardown =>
    have hended : (w.step .teardown).world.phase = .ended := by
      simp [step, hattends, Mailbox.World.step, hphase, howned]
    rw [(attends_iff.mp hnext).1] at hended
    cases hended
  | lastReport reason ok synced =>
    have hsame : (w.step (.lastReport reason ok synced)).bench = w.bench := by
      simp [step, Mailbox.World.step, hphase, bench]
    rw [hsame]
    exact hagree
  | unwind =>
    have hunwound : (w.step .unwind).world.phase = .unwound := by
      simp [step, Mailbox.World.step, howned]
    rw [(attends_iff.mp hnext).1] at hunwound
    cases hunwound

theorem run_steps (h : w.Good seed) (turns : List Turn) : w.Steps seed (w.run turns) := by
  induction turns generalizing w with
  | nil => exact .refl h
  | cons turn turns ih =>
    have hfirst := step_steps h turn
    exact hfirst.trans (ih hfirst.good)

theorem birth_good (b : Mailbox.Birth) : (birth b).Good b.seed where
  kept := {
    well := ⟨rfl, b.sound rfl⟩
    queued := .nil
    issued := fun ht => nomatch ht
    distinct := fun ht => nomatch ht
    counted := fun ht => nomatch ht
    upcoming := fun ht => nomatch ht
    below := fun _ he => nomatch he
    apart := .nil
    onTime := fun _ he => nomatch he }
  closed _ := rfl
  agree _ _ := by
    refine Or.inl fun label => ?_
    have hnone : b.folds.schedules.get label = none := by
      rw [SortedMap.get_eq_none, b.unbooked]
      simp
    show none = (b.folds.schedules.get label).map _
    rw [hnone]
    rfl
  retired hon := nomatch hon

/-! ## Occurrences fire at most once -/

/-- In every run: a wakeup is queued at most once for an id; the wakeups of one id were each posted
when due, for instants that ascend, those before the epoch apart, which are recorded as zero; a
booking's count is of the wakeups posted under its timer's id; an id that no timer bears posts
nothing again, and a cancelled timer's is borne no more, or the append failed and nothing changed;
and where the owner rests, timers and bookings agree on labels and triggers, as they do after any
other turn, but where a report or a clear that could not be recorded took the timers alone. -/
theorem occurrences_fire_once (b : Mailbox.Birth) (turns : List Turn) :
    (∀ id, (wakeups ((birth b).run turns).world.shared.cell.queue).count id ≤ 1) ∧
    (((birth b).run turns).fired.Pairwise fun e e' => e.id = e'.id → e.due < e'.due ∨ e.due = 0 ∧ e'.due = 0) ∧
    (∀ e ∈ ((birth b).run turns).fired, e.due ≤ unixMs e.now) ∧
    (∀ label t s, ((birth b).run turns).bench.timer label = some t → ((birth b).run turns).bench.booking label = some s →
      s.fires = (((birth b).run turns).bench.postedAs t.id).length) ∧
    (∀ id < ((birth b).run turns).registry.nextId, ¬ ((birth b).run turns).bench.Borne id → ∀ later,
      ((birth b).run (turns ++ later)).bench.postedAs id = ((birth b).run turns).bench.postedAs id) ∧
    (∀ label t ok, ((birth b).run turns).attends = true → ((birth b).run turns).bench.timer label = some t →
      ¬ ((birth b).run (turns ++ [.unschedule label ok])).bench.Borne t.id ∨
      ((birth b).run (turns ++ [.unschedule label ok])).registry = ((birth b).run turns).registry ∧
        ((birth b).run (turns ++ [.unschedule label ok])).world.shared.journal.failed = true) ∧
    (((birth b).run turns).attends = true → ((birth b).run turns).bench.Agree ∨ ((birth b).run turns).bench.Spent) ∧
    (∀ turn, ((birth b).run turns).attends = true → ((birth b).run turns).bench.Agree →
      ((birth b).run (turns ++ [turn])).attends = true → ((birth b).run (turns ++ [turn])).bench.Agree) := by
  have hgood := (run_steps (birth_good b) turns).good
  generalize hw : (birth b).run turns = w at hgood ⊢
  refine ⟨fun id => List.nodup_iff_count_le_one.mp hgood.kept.queued id, hgood.kept.apart, hgood.kept.onTime,
    fun _ _ _ => hgood.kept.counted, ?_, ?_, ?_, ?_⟩
  · intro id hid hnot later
    rw [run_append, hw]
    exact ((run_steps hgood later).gone id hid hnot).2
  · intro label t ok hattends ht
    rw [run_append, hw]
    show ¬ (w.own (unschedule label ok)).bench.Borne t.id ∨ _
    have hspec := transact_of_ends hgood.kept.well.sound (unschedule_ended hgood.kept label ok) fun _ _ h => h.1.1
    have hown : w.own (unschedule label ok) = w.put (w.bench.transact (unschedule label ok)).2 := if_pos hattends
    show ¬ (w.own (unschedule label ok)).bench.Borne t.id ∨ (w.own (unschedule label ok)).registry = _ ∧
      (w.own (unschedule label ok)).world.shared.journal.failed = true
    rw [hown]
    refine hspec.2.imp_left fun hregistry => ?_
    rintro ⟨other, t', ht', hid⟩
    have hget : (w.registry.disarmed label).byLabel.get other = some t' := by
      rw [← show (w.bench.transact (unschedule label ok)).2.registry = w.registry.disarmed label from hregistry]
      exact ht'
    by_cases hne : other = label
    · rw [hne, ScheduleRegistry.disarmed_self] at hget
      cases hget
    · rw [ScheduleRegistry.disarmed_other hne] at hget
      exact hne (hgood.kept.distinct hget ht hid)
  · intro hattends
    obtain ⟨hphase, _, hrest⟩ := attends_iff.mp hattends
    exact hgood.agree hphase hrest
  · intro turn hattends hagree hnext
    rw [run_append, hw] at hnext ⊢
    exact step_agree hgood turn hattends hagree hnext

end

/-! ## Where they part -/

def utc : Zone where
  offset _ := 0
  compatible _ := 0
  offset_bound := CronSchedule.utc.offset_bound
  compatible_bound := CronSchedule.utc.compatible_bound
  earlier := CronSchedule.utc.earlier

@[reducible] def greenwich : Clock where
  toCalendar := CronSchedule.gregorian
  zone := utc
  local' _ := "Thu 00:00"

def life (turns : List Turn) : Watch := @run Mailbox.plain greenwich (birth Mailbox.helper) turns

/-- Rung three times before it is answered, a wakeup due is queued once, and its timer goes. -/
theorem occurrences_fire_once_rung :
    (wakeups (life [.schedule 0 (.at' 5000000000) "look" "later" true, .other (.ring "later" 0),
        .other (.ring "later" 0), .other (.ring "later" 0), .fire 6000000000 fun _ => true]).world.shared.cell.queue).count 0
      ≤ 1 ∧
    (life [.schedule 0 (.at' 5000000000) "look" "later" true, .other (.ring "later" 0), .other (.ring "later" 0),
        .other (.ring "later" 0), .fire 6000000000 fun _ => true]).fired = [⟨"later", 0, 5000, 6000000000⟩] :=
  ⟨(@occurrences_fire_once greenwich Mailbox.plain Mailbox.helper
    [.schedule 0 (.at' 5000000000) "look" "later" true, .other (.ring "later" 0), .other (.ring "later" 0),
      .other (.ring "later" 0), .fire 6000000000 fun _ => true]).1 0, rfl⟩

def labels (w : Watch) : List String × List String :=
  (w.registry.byLabel.entries.map Prod.fst, w.world.shared.schedules.entries.map Prod.fst)

def booked : Turn := .schedule 0 (.at' 5000000000) "look" "later" true

def everyMinute : CronSchedule := ⟨BitVec.allOnes 64, BitVec.allOnes 64, BitVec.allOnes 64, BitVec.allOnes 64,
  BitVec.allOnes 64, true, true⟩

/-- Ten minutes before the epoch. -/
def early : Timestamp := -600000000000

/-- Rung and answered, and the wakeup taken up. -/
def round : List Turn := [.other (.ring "often" 0), .fire early fun _ => true, .other (.drain true)]

/-- A clear whose append fails takes the timer and leaves the booking; and a clock set before the
epoch posts two wakeups for one occurrence, which is still to come. -/
theorem clear_unrecorded_parts : labels (life [booked]) = (["later"], ["later"]) ∧
    labels (life [booked, .clear false, .cleared]) = ([], ["later"]) ∧
    (life [booked, .clear false, .cleared]).world.shared.journal.failed = true ∧
    (∃ next, @CronSchedule.nextAfter CronSchedule.gregorian everyMinute utc early = some next ∧ early < next ∧
      (life (.schedule early (.cron everyMinute "* * * * *") "look" "often" true :: (round ++ round))).fired =
        [⟨"often", 0, 0, early⟩, ⟨"often", 0, 0, early⟩]) := by
  refine ⟨by decide +kernel, by decide +kernel, by decide +kernel, -540000000000, ?_, ?_, ?_⟩
  · decide +kernel
  · decide
  · rfl

end Watch

end Ral.Schedule
