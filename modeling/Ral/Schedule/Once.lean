import Ral.Schedule.Alarms

/-! # Timers beside bookings

What every transaction of the registry keeps: an id is borne by one timer at most and never
again once it is not, a booking counts the wakeups posted under its timer's id, and each was
posted for an instant of its own.
-/

namespace Ral.Schedule
open Ral.Data
open Ral.Mailbox (ScheduleId Shared Txn Fault Folds Books Aside wakeups gained)
open Run (Ends Sat)

/-! ## Instants -/

def Later (a b : ℕ) : Prop := a < b ∨ (a = 0 ∧ b = 0)

theorem Later.trans {a b c : ℕ} (h : Later a b) (h' : Later b c) : Later a c := by
  unfold Later at *
  omega

theorem unixMs_eq (t : ℤ) : unixMs t = t.toNat / 1000000 := by
  unfold unixMs
  cases t with
  | ofNat n => rfl
  | negSucc n =>
    have hneg : (Int.negSucc n).tdiv 1000000 ≤ 0 := by
      show -(((n + 1) / 1000000 : ℕ) : ℤ) ≤ 0
      omega
    rw [Int.toNat_of_nonpos hneg, Int.toNat_of_nonpos (Int.negSucc_lt_zero n).le]

theorem later_unixMs {now next : ℤ} {due : ℕ} (hlater : now + 1000000000 ≤ next) (hdue : due ≤ unixMs now) :
    Later due (unixMs next) := by
  rw [unixMs_eq] at *
  unfold Later
  omega

theorem later_of_recurring [Clock] {trigger : Trigger} {now next : Timestamp} {due : ℕ}
    (hrecurring : trigger.isRecurring = true) (hnext : trigger.nextAfter now = some next) (hdue : due ≤ unixMs now) :
    Later due (unixMs next) := by
  cases trigger with
  | cron schedule expr => exact later_unixMs (CronSchedule.nextAfter_later hnext) hdue
  | after delay => cases hrecurring
  | at' instant => cases hrecurring

/-! ## Timers and bookings by label -/

namespace ScheduleRegistry
variable {r : ScheduleRegistry} {label other : String}

theorem armed_self (trigger : Trigger) : (r.armed label trigger).byLabel.get label = some ⟨r.nextId, trigger⟩ :=
  SortedMap.get_insert_self _ _ _

theorem armed_other (hne : other ≠ label) (trigger : Trigger) :
    (r.armed label trigger).byLabel.get other = r.byLabel.get other := SortedMap.get_insert_of_ne _ _ hne

theorem disarmed_self : (r.disarmed label).byLabel.get label = none := SortedMap.get_erase_self _ _

theorem disarmed_other (hne : other ≠ label) : (r.disarmed label).byLabel.get other = r.byLabel.get other :=
  SortedMap.get_erase_of_ne _ hne

theorem rings_eq_some {id : ScheduleId} {timer : Timer} (h : r.rings label id = some timer) :
    r.byLabel.get label = some timer ∧ timer.id = id := by
  unfold rings at h
  obtain ⟨hget, hid⟩ := Option.filter_eq_some_iff.mp h
  exact ⟨hget, by simpa using hid⟩

end ScheduleRegistry

namespace Bench

def timer (b : Bench) (label : String) : Option Timer := b.registry.byLabel.get label

def booking (b : Bench) (label : String) : Option Mailbox.Schedule := b.shared.schedules.get label

def Borne (b : Bench) (id : ScheduleId) : Prop := ∃ label t, b.timer label = some t ∧ t.id = id

def postedAs (b : Bench) (id : ScheduleId) : List Firing := b.fired.filter fun e => e.id = id

def Agree [Clock] (b : Bench) : Prop := ∀ label,
  (b.timer label).map (fun t => (t.trigger.describe, t.trigger.cron?)) =
    (b.booking label).map fun s => (s.trigger, s.cron)

/-- No timer is left, and nothing more is recorded. -/
def Spent (b : Bench) : Prop := b.registry.byLabel.entries = [] ∧ b.shared.journal.failed = true

/-- The invariant of every transaction. -/
structure Kept [Mailbox.Wording] (seed : Folds) (b : Bench) : Prop where
  well : b.shared.Well seed
  queued : (wakeups b.shared.cell.queue).Nodup
  issued : ∀ {label t}, b.timer label = some t → t.id < b.registry.nextId
  distinct : ∀ {label label' t t'}, b.timer label = some t → b.timer label' = some t' → t.id = t'.id → label = label'
  counted : ∀ {label t s}, b.timer label = some t → b.booking label = some s → s.fires = (b.postedAs t.id).length
  upcoming : ∀ {label t s}, b.timer label = some t → b.booking label = some s →
    ∀ e ∈ b.fired, e.id = t.id → Later e.due s.nextUnixMs
  below : ∀ e ∈ b.fired, e.id < b.registry.nextId
  apart : b.fired.Pairwise fun e e' => e.id = e'.id → Later e.due e'.due
  onTime : ∀ e ∈ b.fired, e.due ≤ unixMs e.now

/-- What a transaction of the registry leaves. -/
structure Moves [Clock] [Mailbox.Wording] (seed : Folds) (b b' : Bench) : Prop where
  kept : b'.Kept seed
  agree : b.Agree → b'.Agree
  spent : b.Spent → b'.Spent
  nextId : b.registry.nextId ≤ b'.registry.nextId
  gone : ∀ id < b.registry.nextId, ¬ b.Borne id → ¬ b'.Borne id ∧ b'.postedAs id = b.postedAs id

namespace Moves
variable [Clock] [Mailbox.Wording] {seed : Folds} {b b' c : Bench}

theorem refl (h : b.Kept seed) : b.Moves seed b where
  kept := h
  agree h := h
  spent h := h
  nextId := le_refl _
  gone _ _ h := ⟨h, rfl⟩

theorem trans (h : b.Moves seed b') (h' : b'.Moves seed c) : b.Moves seed c where
  kept := h'.kept
  agree hb := h'.agree (h.agree hb)
  spent hb := h'.spent (h.spent hb)
  nextId := h.nextId.trans h'.nextId
  gone id hid hnot := by
    obtain ⟨hnot', hsame⟩ := h.gone id hid hnot
    obtain ⟨hnot'', hsame'⟩ := h'.gone id (hid.trans_le h.nextId) hnot'
    exact ⟨hnot'', hsame'.trans hsame⟩

end Moves

variable [Mailbox.Wording] {seed : Folds} {b b' : Bench}

theorem Kept.fewer (h : b.Kept seed) (well : b'.shared.Well seed)
    (queued : (wakeups b'.shared.cell.queue).Sublist (wakeups b.shared.cell.queue))
    (timers : ∀ {label t}, b'.timer label = some t → b.timer label = some t)
    (bookings : ∀ {label t s}, b'.timer label = some t → b'.booking label = some s → b.booking label = some s)
    (nextId : b'.registry.nextId = b.registry.nextId) (fired : b'.fired = b.fired) : b'.Kept seed where
  well := well
  queued := queued.nodup h.queued
  issued ht := nextId ▸ h.issued (timers ht)
  distinct ht ht' := h.distinct (timers ht) (timers ht')
  counted ht hs := by
    unfold postedAs
    rw [fired]
    exact h.counted (timers ht) (bookings ht hs)
  upcoming ht hs := fired ▸ h.upcoming (timers ht) (bookings ht hs)
  below := by
    rw [fired, nextId]
    exact h.below
  apart := fired ▸ h.apart
  onTime := fired ▸ h.onTime

theorem Kept.aside (h : b.Kept seed) {s : Shared} (well : s.Well seed) (haside : Aside b.shared s) :
    Kept seed { b with shared := s } :=
  h.fewer well haside.wakeups (fun ht => ht) (fun _ hs => by
    unfold booking at hs ⊢
    rw [haside.schedules] at hs
    exact hs) rfl rfl

theorem Moves.aside [Clock] (h : b.Kept seed) {s : Shared} (well : s.Well seed) (haside : Aside b.shared s) :
    b.Moves seed { b with shared := s } where
  kept := h.aside well haside
  agree hagree label := by
    have hsame := hagree label
    unfold booking at hsame ⊢
    rw [haside.schedules]
    exact hsame
  spent hspent := ⟨hspent.1, haside.latch hspent.2⟩
  nextId := le_refl _
  gone _ _ hnot := ⟨hnot, rfl⟩

/-! ## Booking and cancelling -/

/-- A booking and its timer, of a fresh id. -/
theorem Moves.booked [Clock] (h : b.Kept seed) {s : Shared} (well : s.Well seed) {label : String} {trigger : Trigger}
    {booking : Mailbox.Schedule} (unlatched : b.shared.journal.failed = false)
    (hbooks : Books (b.shared.schedules.insert label booking) b.shared s)
    (hfires : booking.fires = 0) (htrigger : booking.trigger = trigger.describe) (hcron : booking.cron = trigger.cron?) :
    b.Moves seed { b with shared := s, registry := b.registry.armed label trigger } := by
  have hself : s.schedules.get label = some booking := by
    rw [hbooks.schedules]
    exact SortedMap.get_insert_self _ _ _
  have hothers {other : String} (hne : other ≠ label) : s.schedules.get other = b.shared.schedules.get other := by
    rw [hbooks.schedules]
    exact SortedMap.get_insert_of_ne _ _ hne
  have hfresh : b.postedAs b.registry.nextId = [] := by
    unfold postedAs
    rw [List.filter_eq_nil_iff]
    intro e he
    simpa using (h.below e he).ne
  -- A timer of the new registry is the fresh one, or one there was.
  have htimer {other : String} {t : Timer} (ht : (b.registry.armed label trigger).byLabel.get other = some t) :
      (other = label ∧ t = ⟨b.registry.nextId, trigger⟩) ∨ (other ≠ label ∧ b.timer other = some t) := by
    by_cases hne : other = label
    · subst hne
      rw [ScheduleRegistry.armed_self] at ht
      exact Or.inl ⟨rfl, (Option.some.inj ht).symm⟩
    · rw [ScheduleRegistry.armed_other hne] at ht
      exact Or.inr ⟨hne, ht⟩
  refine ⟨⟨well, hbooks.wakeups.nodup h.queued, ?_, ?_, ?_, ?_, ?_, h.apart, h.onTime⟩, ?_, ?_, Nat.le_succ _, ?_⟩
  · intro other t ht
    rcases htimer ht with ⟨rfl, rfl⟩ | ⟨_, ht⟩
    · exact Nat.lt_succ_self _
    · exact (h.issued ht).trans (Nat.lt_succ_self _)
  · intro other other' t t' ht ht' hid
    rcases htimer ht with ⟨rfl, rfl⟩ | ⟨_, hold⟩ <;> rcases htimer ht' with ⟨rfl, rfl⟩ | ⟨_, hold'⟩
    · rfl
    · exact absurd hid (h.issued hold').ne'
    · exact absurd hid (h.issued hold).ne
    · exact h.distinct hold hold' hid
  · intro other t s' ht hs
    rcases htimer ht with ⟨rfl, rfl⟩ | ⟨hne, hold⟩
    · have hbooking : booking = s' := Option.some.inj (hself.symm.trans hs)
      rw [← hbooking, hfires]
      show 0 = (b.postedAs b.registry.nextId).length
      rw [hfresh]
      rfl
    · exact h.counted hold ((hothers hne).symm.trans hs)
  · intro other t s' ht hs e he hid
    rcases htimer ht with ⟨rfl, rfl⟩ | ⟨hne, hold⟩
    · exact absurd hid (h.below e he).ne
    · exact h.upcoming hold ((hothers hne).symm.trans hs) e he hid
  · exact fun e he => (h.below e he).trans (Nat.lt_succ_self _)
  · intro hagree other
    by_cases hne : other = label
    · subst hne
      show ((b.registry.armed other trigger).byLabel.get other).map _ = (s.schedules.get other).map _
      rw [ScheduleRegistry.armed_self, hself]
      simp [htrigger, hcron]
    · show ((b.registry.armed label trigger).byLabel.get other).map _ = (s.schedules.get other).map _
      rw [ScheduleRegistry.armed_other hne, hothers hne]
      exact hagree other
  · intro hspent
    exact absurd (unlatched.symm.trans hspent.2) Bool.false_ne_true
  · intro id hid hnot
    refine ⟨?_, rfl⟩
    rintro ⟨other, t, ht, hborne⟩
    rcases htimer ht with ⟨rfl, rfl⟩ | ⟨_, hold⟩
    · exact absurd hborne hid.ne'
    · exact hnot ⟨other, t, hold, hborne⟩

/-- A timer goes, with its booking if there was one. -/
theorem Moves.disarmed [Clock] (h : b.Kept seed) {s : Shared} (well : s.Well seed) {label : String}
    (hbooks : Books (b.shared.schedules.erase label) b.shared s) :
    b.Moves seed { b with shared := s, registry := b.registry.disarmed label } := by
  have hself : s.schedules.get label = none := by
    rw [hbooks.schedules]
    exact SortedMap.get_erase_self _ _
  have hothers {other : String} (hne : other ≠ label) : s.schedules.get other = b.shared.schedules.get other := by
    rw [hbooks.schedules]
    exact SortedMap.get_erase_of_ne _ hne
  have htimer {other : String} {t : Timer} (ht : (b.registry.disarmed label).byLabel.get other = some t) :
      other ≠ label ∧ b.timer other = some t := by
    by_cases hne : other = label
    · subst hne
      rw [ScheduleRegistry.disarmed_self] at ht
      cases ht
    · rw [ScheduleRegistry.disarmed_other hne] at ht
      exact ⟨hne, ht⟩
  refine ⟨h.fewer well hbooks.wakeups (fun ht => (htimer ht).2) ?_ rfl rfl, ?_, ?_, le_refl _, ?_⟩
  · intro other t s' ht hs
    exact (hothers (htimer ht).1).symm.trans hs
  · intro hagree other
    by_cases hne : other = label
    · subst hne
      show ((b.registry.disarmed other).byLabel.get other).map _ = (s.schedules.get other).map _
      rw [ScheduleRegistry.disarmed_self, hself]
      rfl
    · show ((b.registry.disarmed label).byLabel.get other).map _ = (s.schedules.get other).map _
      rw [ScheduleRegistry.disarmed_other hne, hothers hne]
      exact hagree other
  · intro hspent
    refine ⟨?_, hbooks.latch hspent.2⟩
    show (b.registry.byLabel.erase label).entries = []
    rw [SortedMap.entries_erase, hspent.1]
    rfl
  · intro id hid hnot
    refine ⟨?_, rfl⟩
    rintro ⟨other, t, ht, hborne⟩
    exact hnot ⟨other, t, (htimer ht).2, hborne⟩

/-! ## Firing -/

/-- The wakeups that a firing posts. -/
def newly (b : Bench) (s : Shared) (label : String) (booking : Mailbox.Schedule) (now : Timestamp) : List Firing :=
  (gained b.shared s).map fun id => ⟨label, id, booking.nextUnixMs, now⟩

def firing (b : Bench) (s : Shared) (label : String) (booking : Mailbox.Schedule) (now : Timestamp) : Bench :=
  { b with shared := s, fired := b.fired ++ b.newly s label booking now }

section Firing
variable {s : Shared} {label : String} {t : Timer} {booking : Mailbox.Schedule} {now : Timestamp} {next : Option ℕ}

omit [Mailbox.Wording] in
theorem newly_eq (hfires : Mailbox.Fires b.shared label t.id booking next s) : b.newly s label booking now =
    if t.id ∈ wakeups b.shared.cell.queue then [] else [⟨label, t.id, booking.nextUnixMs, now⟩] := by
  unfold newly
  rw [hfires.gained]
  split <;> rfl

omit [Mailbox.Wording] in
theorem mem_newly (hfires : Mailbox.Fires b.shared label t.id booking next s) {e : Firing}
    (he : e ∈ b.newly s label booking now) : e = ⟨label, t.id, booking.nextUnixMs, now⟩ := by
  rw [newly_eq hfires] at he
  split at he
  · cases he
  · exact List.mem_singleton.mp he

omit [Mailbox.Wording] in
theorem postedAs_firing_of_ne (hfires : Mailbox.Fires b.shared label t.id booking next s) {id : ScheduleId}
    (hne : id ≠ t.id) : (b.firing s label booking now).postedAs id = b.postedAs id := by
  have hnone : (b.newly s label booking now).filter (fun e => e.id = id) = [] := by
    rw [List.filter_eq_nil_iff]
    intro e he
    rw [mem_newly hfires he]
    simpa using hne.symm
  unfold postedAs firing
  rw [List.filter_append, hnone, List.append_nil]

omit [Mailbox.Wording] in
theorem length_postedAs_firing (hfires : Mailbox.Fires b.shared label t.id booking next s) :
    ((b.firing s label booking now).postedAs t.id).length =
      (b.postedAs t.id).length + (decide (t.id ∉ wakeups b.shared.cell.queue)).toNat := by
  unfold postedAs firing
  rw [newly_eq hfires, List.filter_append, List.length_append]
  by_cases hmem : t.id ∈ wakeups b.shared.cell.queue <;> simp [hmem]

omit [Mailbox.Wording] in
theorem booking_firing_self (hfires : Mailbox.Fires b.shared label t.id booking next s) :
    (b.firing s label booking now).booking label = next.map fun nextUnixMs =>
      { booking with nextUnixMs, fires := booking.fires + (decide (t.id ∉ wakeups b.shared.cell.queue)).toNat } := by
  show s.schedules.get label = _
  rw [hfires.schedules]
  cases next with
  | none => exact SortedMap.get_erase_self _ _
  | some n => exact SortedMap.get_insert_self _ _ _

omit [Mailbox.Wording] in
theorem booking_firing_other (hfires : Mailbox.Fires b.shared label t.id booking next s) {other : String}
    (hne : other ≠ label) : (b.firing s label booking now).booking other = b.booking other := by
  show s.schedules.get other = _
  rw [hfires.schedules]
  cases next with
  | none => exact SortedMap.get_erase_of_ne _ hne
  | some n => exact SortedMap.get_insert_of_ne _ _ hne

/-- A due occurrence fired, and the next recorded in its place. -/
theorem Kept.firing (h : b.Kept seed) (well : s.Well seed) (htimer : b.timer label = some t)
    (hbooking : b.booking label = some booking) (hdue : booking.nextUnixMs ≤ unixMs now)
    (hnext : ∀ n, next = some n → Later booking.nextUnixMs n)
    (hfires : Mailbox.Fires b.shared label t.id booking next s) : (b.firing s label booking now).Kept seed where
  well := well
  queued := by
    refine hfires.wakeups.nodup ?_
    rw [hfires.gained]
    split
    · rw [List.append_nil]
      exact h.queued
    · next hnot =>
        refine List.nodup_append.mpr ⟨h.queued, by simp, ?_⟩
        intro id hid id' hid' heq
        rw [List.mem_singleton.mp hid'] at heq
        exact hnot (heq ▸ hid)
  issued := h.issued
  distinct := h.distinct
  counted := by
    intro other t' s' ht' hs'
    by_cases hne : other = label
    · subst hne
      obtain rfl : t = t' := Option.some.inj (htimer.symm.trans ht')
      rw [booking_firing_self hfires] at hs'
      obtain ⟨n, _, rfl⟩ := Option.map_eq_some_iff.mp hs'
      rw [length_postedAs_firing hfires, ← h.counted htimer hbooking]
    · have hid : t'.id ≠ t.id := fun heq => hne (h.distinct ht' htimer heq)
      rw [booking_firing_other hfires hne] at hs'
      rw [postedAs_firing_of_ne hfires hid]
      exact h.counted ht' hs'
  upcoming := by
    intro other t' s' ht' hs' e he hid
    by_cases hne : other = label
    · subst hne
      obtain rfl : t = t' := Option.some.inj (htimer.symm.trans ht')
      rw [booking_firing_self hfires] at hs'
      obtain ⟨n, hn, rfl⟩ := Option.map_eq_some_iff.mp hs'
      rcases List.mem_append.mp he with hold | hnew
      · exact (h.upcoming htimer hbooking e hold hid).trans (hnext n hn)
      · rw [mem_newly hfires hnew]
        exact hnext n hn
    · have hother : t'.id ≠ t.id := fun heq => hne (h.distinct ht' htimer heq)
      rw [booking_firing_other hfires hne] at hs'
      rcases List.mem_append.mp he with hold | hnew
      · exact h.upcoming ht' hs' e hold hid
      · rw [mem_newly hfires hnew] at hid
        exact absurd hid.symm hother
  below := by
    intro e he
    rcases List.mem_append.mp he with hold | hnew
    · exact h.below e hold
    · rw [mem_newly hfires hnew]
      exact h.issued htimer
  apart := by
    refine List.pairwise_append.mpr ⟨h.apart, ?_, ?_⟩
    · rw [newly_eq hfires]
      split <;> simp
    · intro e he e' he' hid
      rw [mem_newly hfires he'] at hid ⊢
      exact h.upcoming htimer hbooking e he hid
  onTime := by
    intro e he
    rcases List.mem_append.mp he with hold | hnew
    · exact h.onTime e hold
    · rw [mem_newly hfires hnew]
      exact hdue

/-- A firing, after which the timer stays where another occurrence was recorded. -/
theorem Kept.fired [Clock] (h : b.Kept seed) (well : s.Well seed) (htimer : b.timer label = some t)
    (hbooking : b.booking label = some booking) (hdue : booking.nextUnixMs ≤ unixMs now)
    (hnext : ∀ n, next = some n → Later booking.nextUnixMs n)
    (hfires : Mailbox.Fires b.shared label t.id booking next s) :
    b.Moves seed { b.firing s label booking now with
      registry := if next.isSome then b.registry else b.registry.disarmed label } := by
  have hkept := h.firing well htimer hbooking hdue hnext hfires
  have hself : (b.firing s label booking now).booking label = _ := booking_firing_self hfires
  have hothers {other : String} (hne : other ≠ label) :
      (b.firing s label booking now).booking other = b.booking other :=
    booking_firing_other hfires hne
  have hunspent : ¬ b.Spent := by
    intro hspent
    have hmem := SortedMap.get_eq_some.mp htimer
    rw [hspent.1] at hmem
    cases hmem
  have hgone {b' : Bench} (hpost : ∀ id, b'.postedAs id = (b.firing s label booking now).postedAs id)
      (hborne : ∀ id, b'.Borne id → b.Borne id) :
      ∀ id < b.registry.nextId, ¬ b.Borne id → ¬ b'.Borne id ∧ b'.postedAs id = b.postedAs id := by
    intro id _ hnot
    refine ⟨fun hborn => hnot (hborne id hborn), (hpost id).trans (postedAs_firing_of_ne hfires ?_)⟩
    rintro rfl
    exact hnot ⟨label, t, htimer, rfl⟩
  cases next with
  | some n =>
    refine ⟨hkept, ?_, fun hspent => absurd hspent hunspent, le_refl _, hgone (fun _ => rfl) fun _ hborn => hborn⟩
    intro hagree other
    by_cases hne : other = label
    · subst hne
      have hold := hagree other
      rw [hbooking] at hold
      show (b.timer other).map _ = ((b.firing s other booking now).booking other).map _
      rw [hself]
      exact hold
    · show (b.timer other).map _ = ((b.firing s label booking now).booking other).map _
      rw [hothers hne]
      exact hagree other
  | none =>
    have herased : s.schedules = s.schedules.erase label := by
      rw [hfires.schedules]
      exact (SortedMap.erase_erase _ _).symm
    have hbooks : Books ((b.firing s label booking now).shared.schedules.erase label)
        (b.firing s label booking now).shared s :=
      ⟨herased, .refl _, rfl, fun h => h⟩
    have hdrop := Moves.disarmed hkept well hbooks
    refine ⟨hdrop.kept, ?_, fun hspent => absurd hspent hunspent, le_refl _, hgone (fun _ => rfl) ?_⟩
    · intro hagree other
      by_cases hne : other = label
      · subst hne
        show ((b.registry.disarmed other).byLabel.get other).map _ =
          ((b.firing s other booking now).booking other).map _
        rw [ScheduleRegistry.disarmed_self, hself]
        rfl
      · show ((b.registry.disarmed label).byLabel.get other).map _ =
          ((b.firing s label booking now).booking other).map _
        rw [ScheduleRegistry.disarmed_other hne, hothers hne]
        exact hagree other
    · rintro id ⟨other, t', ht', hid⟩
      by_cases hne : other = label
      · subst hne
        have hnone : (b.registry.disarmed other).byLabel.get other = none := ScheduleRegistry.disarmed_self
        cases hnone.symm.trans ht'
      · exact ⟨other, t', (ScheduleRegistry.disarmed_other hne).symm.trans ht', hid⟩

end Firing

end Bench

/-! ## Transactions -/

section
variable [Clock] [Mailbox.Wording] {seed : Folds} {b : Bench}

omit [Clock] [Mailbox.Wording] in
theorem ends_txn {α : Type} {x : Txn α} {Q : Except Fault α → Bench → Prop}
    (h : Ends x b.shared fun r s => Q r { b with shared := s }) : Ends (txn x) b Q := by
  obtain ⟨r, s, hx, hQ⟩ := h
  exact ⟨r, { b with shared := s }, by simp [txn, Run.zoom, hx], hQ⟩

omit [Clock] in
theorem ends_quiet {α : Type} {x : Txn α} {P : Except Fault α → Shared → Prop} (h : b.Kept seed)
    (hquiet : b.shared.Replays seed → Ends x b.shared (Mailbox.Quiet seed b.shared)) (hspec : Sat x b.shared P) :
    Ends x b.shared fun r s => r ≠ .error .panicked ∧ s.Well seed ∧ P r s := by
  obtain ⟨r, s, hx, hends⟩ := hquiet h.well.replays
  obtain ⟨hr, hwell⟩ := hends.well h.well
  exact ⟨r, s, hx, hr, hwell, hspec r s hx⟩

def Ended (seed : Folds) (b : Bench) {α : Type} (r : Except Fault α) (b' : Bench) : Prop :=
  r ≠ .error .panicked ∧ b.Moves seed b'

theorem schedule_ended (h : b.Kept seed) (now : Timestamp) (trigger : Trigger) (prompt label : String) (ok : Bool) :
    Ends (schedule now trigger prompt label ok) b (Ended seed b) := by
  unfold schedule
  cases trigger.nextAfter now with
  | none => exact Run.ends_pure ⟨by simp, .refl h⟩
  | some next =>
    refine Run.ends_bind (Run.ends_attempt (ends_txn ?_))
    refine (ends_quiet h (fun hreplays => Mailbox.schedule_quiet hreplays _ _)
      (Mailbox.schedule_scheduling _ _ ok)).mono fun r s hspec => ?_
    obtain ⟨hne, hwell, hscheduling⟩ := hspec
    rw [Run.after_ok]
    match r with
    | .error .panicked => exact absurd rfl hne
    | .error .unavailable | .error .ended | .error .resting =>
      exact Run.ends_pure ⟨by simp, .aside h hwell hscheduling⟩
    | .ok false =>
      have hsame : s = b.shared := hscheduling
      rw [hsame]
      exact Run.ends_pure ⟨by simp, .refl h⟩
    | .ok true =>
      obtain ⟨hunlatched, _, hbooks⟩ := hscheduling
      exact Run.ends_bind (Run.ends_modify (Run.ends_pure ⟨by simp, .booked h hwell hunlatched hbooks rfl rfl rfl⟩))

theorem unschedule_ended (h : b.Kept seed) (label : String) (ok : Bool) :
    Ends (unschedule label ok) b fun r b' => Ended seed b r b' ∧
      (b'.registry = b.registry.disarmed label ∨ b'.registry = b.registry ∧ b'.shared.journal.failed = true) := by
  refine Run.ends_bind (ends_txn ?_)
  refine (ends_quiet h (fun hreplays => Mailbox.unschedule_quiet hreplays _)
    (Mailbox.unschedule_unscheduling label ok)).mono fun r s hspec => ?_
  obtain ⟨hne, hwell, hunscheduling⟩ := hspec
  have hleft := hunscheduling hne
  cases r with
  | error e => exact ⟨⟨by simpa using hne, .aside h hwell hleft.1⟩, Or.inr ⟨rfl, hleft.2⟩⟩
  | ok removed =>
    refine Run.ends_bind (Run.ends_modify (Run.ends_pure ⟨⟨by simp, ?_⟩, Or.inl rfl⟩))
    exact .disarmed h hwell hleft

/-- One ring answered. -/
theorem answer_ended (h : b.Kept seed) (now : Timestamp) (label : String) (id : ScheduleId) (ok : Bool) :
    Ends (answer now label id ok) b (Ended seed b) := by
  refine Run.ends_bind (Run.ends_get ?_)
  rw [Run.after_ok]
  cases hrings : b.registry.rings label id with
  | none => exact Run.ends_pure ⟨by simp, .refl h⟩
  | some timer =>
    obtain ⟨htimer, rfl⟩ := ScheduleRegistry.rings_eq_some hrings
    dsimp only
    cases hbooking : b.shared.schedules.get label with
    | none =>
      -- The booking was retired: its timer goes unanswered.
      have herase : b.shared.schedules = b.shared.schedules.erase label := (SortedMap.erase_of_absent hbooking).symm
      have hbooks : Books (b.shared.schedules.erase label) b.shared b.shared :=
        ⟨herase, .refl _, rfl, fun h => h⟩
      have hmoves := Bench.Moves.disarmed h h.well hbooks
      exact Run.ends_modify ⟨by simp, hmoves⟩
    | some booking =>
      dsimp only
      split
      · exact Run.ends_pure ⟨by simp, .refl h⟩
      · next hdue =>
          obtain hdue : booking.nextUnixMs ≤ unixMs now := Nat.le_of_not_lt hdue
          generalize hnext : (if timer.trigger.isRecurring then (timer.trigger.nextAfter now).map unixMs else none) = next
          have hlater : ∀ n, next = some n → Later booking.nextUnixMs n := by
            intro n hn
            rw [hn] at hnext
            split at hnext
            · next hrecurring =>
                obtain ⟨instant, hinstant, rfl⟩ := Option.map_eq_some_iff.mp hnext
                exact later_of_recurring hrecurring hinstant hdue
            · cases hnext
          refine Run.ends_bind (ends_txn ?_)
          refine (ends_quiet h (fun hreplays => Mailbox.fire_quiet hreplays _ _ _ _)
            (Mailbox.fire_fires hbooking _ next _ ok)).mono fun r s hspec => ?_
          obtain ⟨hne, hwell, hspec⟩ := hspec
          cases r with
          | error e => exact ⟨by simpa using hne, .aside h hwell hspec⟩
          | ok fired =>
            have hmoves := h.fired hwell htimer hbooking hdue hlater hspec
            refine Run.ends_bind (Run.ends_modify ?_)
            cases next with
            | some n => exact Run.ends_pure ⟨by simp, hmoves⟩
            | none => exact Run.ends_modify ⟨by simp, hmoves⟩

theorem answers_ended (now : Timestamp) (device : String → Bool) (rung : List (String × ScheduleId)) {b : Bench}
    (h : b.Kept seed) : Ends (answers now device rung) b (Ended seed b) := by
  induction rung generalizing b with
  | nil => exact Run.ends_pure ⟨by simp, .refl h⟩
  | cons ring rest ih =>
    refine Run.ends_bind ((answer_ended h now ring.1 ring.2 (device ring.1)).mono fun r b' hended => ?_)
    cases r with
    | error e => exact hended
    | ok u => exact (ih hended.2.kept).mono fun r c hrest => ⟨hrest.1, hended.2.trans hrest.2⟩

theorem fire_ended (h : b.Kept seed) (now : Timestamp) (device : String → Bool) :
    Ends (fire now device) b (Ended seed b) := by
  refine Run.ends_bind (ends_txn ?_)
  refine (ends_quiet h (fun hreplays => Mailbox.takeRung_quiet hreplays)
    (Mailbox.takeRung_aside b.shared)).mono fun r s hspec => ?_
  obtain ⟨hne, hwell, haside⟩ := hspec
  have hmoves := Bench.Moves.aside h hwell haside
  cases r with
  | error e => exact ⟨by simpa using hne, hmoves⟩
  | ok rung => exact (answers_ended now device rung.entries hmoves.kept).mono fun r c hrest =>
    ⟨hrest.1, hmoves.trans hrest.2⟩

end

end Ral.Schedule
