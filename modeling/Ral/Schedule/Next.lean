import Mathlib.Order.Bounds.Basic
import Ral.Schedule.Cron

/-! # Civil minutes and zones

Civil time is counted in minutes from a midnight, and instants in nanoseconds. A zone shows
each instant at an offset, and reads a civil minute back at one: the earlier offset where the
minute is shown twice, and past the gap where it is never shown.
-/

namespace Ral.Schedule

/-! ## The calendar -/

/-- The days a civil date may be, by number, and the instants a timestamp may hold. -/
class Calendar where
  month : ℤ → ℕ
  day : ℤ → ℕ
  weekday : ℤ → ℕ
  lastDay : ℤ
  earliest : ℤ
  latest : ℤ
  latest_shown : ((lastDay + 1) * 86400 - 93600) * 1000000000 ≤ latest

def dayOf (c : ℤ) : ℤ := c / 1440

def hourOf (c : ℤ) : ℕ := (c % 1440 / 60).toNat

def minuteOf (c : ℤ) : ℕ := (c % 60).toNat

section Civil
variable [Calendar]

def nextMinute (c : ℤ) : Option ℤ := if dayOf (c + 1) ≤ Calendar.lastDay then some (c + 1) else none

/-- The midnight after. -/
def nextDay (c : ℤ) : Option ℤ := if dayOf c + 1 ≤ Calendar.lastDay then some ((dayOf c + 1) * 1440) else none

end Civil

/-! ## Zones -/

/-- A zone's offsets east, in seconds. -/
structure Zone where
  offset : ℤ → ℤ
  compatible : ℤ → ℤ
  offset_bound : ∀ t, -93599 ≤ offset t ∧ offset t ≤ 93599
  compatible_bound : ∀ c, -93599 ≤ compatible c ∧ compatible c ≤ 93599
  earlier : ∀ t c, t + offset t * 1000000000 = c * 60000000000 →
    (c * 60000000000 - compatible c * 1000000000) + offset (c * 60000000000 - compatible c * 1000000000) * 1000000000 =
      c * 60000000000 ∧ c * 60000000000 - compatible c * 1000000000 ≤ t

namespace Zone

def shown (zone : Zone) (t : ℤ) : ℤ := t + zone.offset t * 1000000000

def reading (zone : Zone) (c : ℤ) : ℤ := c * 60000000000 - zone.compatible c * 1000000000

def Shows (zone : Zone) (t c : ℤ) : Prop := zone.shown t = c * 60000000000

/-- The reading, where a timestamp holds it. -/
def toZoned [Calendar] (zone : Zone) (c : ℤ) : Option ℤ :=
  if Calendar.earliest ≤ zone.reading c ∧ zone.reading c ≤ Calendar.latest then some (zone.reading c) else none

/-- No civil time is first shown behind one shown before: what was skipped stays skipped. -/
def Orderly (zone : Zone) : Prop :=
  ∀ t t', t < t' → (∀ u, u < t' → zone.shown u ≠ zone.shown t') → zone.shown t < zone.shown t'

variable {zone : Zone} {t c : ℤ}

theorem shows_reading (h : zone.Shows t c) : zone.Shows (zone.reading c) c := (zone.earlier t c h).1

theorem reading_le (h : zone.Shows t c) : zone.reading c ≤ t := (zone.earlier t c h).2

theorem reading_eq_of_first (h : zone.Shows t c) (hfirst : ∀ u, u < t → ¬ zone.Shows u c) : zone.reading c = t := by
  have hle := reading_le h
  by_contra hne
  exact hfirst _ (lt_of_le_of_ne hle hne) (shows_reading h)

theorem toZoned_eq_some [Calendar] : zone.toZoned c = some t ↔
    zone.reading c = t ∧ Calendar.earliest ≤ t ∧ t ≤ Calendar.latest := by
  unfold toZoned
  split
  · next h =>
      constructor
      · intro heq
        cases heq
        exact ⟨rfl, h⟩
      · rintro ⟨rfl, -⟩
        rfl
  · next h =>
      constructor
      · intro heq
        cases heq
      · rintro ⟨rfl, hrange⟩
        exact (h hrange).elim

end Zone

/-! ## The next firing

The civil minutes after the given instant's own are tried in turn, a day at a time where the
date does not match. The first that matches and is read late enough is the next firing.
-/

/-! ## Matching -/

section Search
variable [Calendar]

namespace CronSchedule

def timeMatches (s : CronSchedule) (c : ℤ) : Bool := bit s.minute (minuteOf c) && bit s.hour (hourOf c)

def dateMatches (s : CronSchedule) (c : ℤ) : Bool :=
  let domOk := bit s.dom (Calendar.day (dayOf c))
  let dowOk := bit s.dow (Calendar.weekday (dayOf c))
  bit s.month (Calendar.month (dayOf c)) &&
    match s.domStar, s.dowStar with
    | true, true => true
    | false, true => domOk
    | true, false => dowOk
    | false, false => domOk || dowOk

/-- A century of whole days and a day of minutes. -/
def maxSteps : ℕ := 366 * 100 + 1440

def secondsSince (now t : ℤ) : ℤ := (t - now).tdiv 1000000000

def firingAt (s : CronSchedule) (zone : Zone) (now c : ℤ) : Option ℤ :=
  if s.timeMatches c then
    match zone.toZoned c with
    | some z => if secondsSince now z > 0 then some z else none
    | none => none
  else none

/-- One step a minute, or a day whose date does not match. -/
def search (s : CronSchedule) (zone : Zone) (now : ℤ) : ℕ → ℤ → Option ℤ
  | 0, _ => none
  | steps + 1, cand =>
    if s.dateMatches cand then
      match s.firingAt zone now cand with
      | some z => some z
      | none => (nextMinute cand).bind (s.search zone now steps)
    else (nextDay cand).bind (s.search zone now steps)

def minuteAt (zone : Zone) (t : ℤ) : ℤ := zone.shown t / 60000000000

def nextAfter (s : CronSchedule) (zone : Zone) (now : ℤ) : Option ℤ :=
  (nextMinute (minuteAt zone now)).bind (s.search zone now maxSteps)

/-! ## What is due -/

def Matches (s : CronSchedule) (c : ℤ) : Prop := s.dateMatches c = true ∧ s.timeMatches c = true

/-- A minute that matches, read strictly later than the instant. -/
def Due (s : CronSchedule) (zone : Zone) (now c : ℤ) : Prop :=
  s.Matches c ∧ ∃ t, zone.toZoned c = some t ∧ now < t

/-- No minute due is read less than a second after the instant. -/
def Apart (s : CronSchedule) (zone : Zone) (now : ℤ) : Prop :=
  ∀ c t, s.Matches c → zone.toZoned c = some t → now < t → now + 1000000000 ≤ t

variable {s : CronSchedule} {zone : Zone} {now : ℤ}

omit [Calendar] in
theorem secondsSince_pos {t : ℤ} : secondsSince now t > 0 ↔ now + 1000000000 ≤ t := by
  unfold secondsSince
  rcases Int.le_total 0 (t - now) with hle | hle
  · rw [Int.tdiv_eq_ediv_of_nonneg hle]
    omega
  · rw [← Int.neg_sub, Int.neg_tdiv, Int.tdiv_eq_ediv_of_nonneg (by omega)]
    omega

theorem firingAt_eq_some {c z : ℤ} : s.firingAt zone now c = some z ↔
    s.timeMatches c = true ∧ zone.toZoned c = some z ∧ now + 1000000000 ≤ z := by
  unfold firingAt
  cases htime : s.timeMatches c with
  | false => simp
  | true =>
    cases hzoned : zone.toZoned c with
    | none => simp
    | some t =>
      simp only [if_true, true_and, Option.some.injEq]
      split
      · next hlate =>
          constructor
          · intro h
            cases h
            exact ⟨rfl, secondsSince_pos.mp hlate⟩
          · rintro ⟨rfl, -⟩
            rfl
      · next hearly =>
          constructor
          · intro h
            cases h
          · rintro ⟨rfl, hle⟩
            exact (hearly (secondsSince_pos.mpr hle)).elim

theorem due_iff_firingAt (hapart : s.Apart zone now) {c : ℤ} (hdate : s.dateMatches c = true) :
    s.Due zone now c ↔ ∃ z, s.firingAt zone now c = some z := by
  simp only [firingAt_eq_some]
  constructor
  · rintro ⟨hmatches, t, hzoned, hlt⟩
    exact ⟨t, hmatches.2, hzoned, hapart c t hmatches hzoned hlt⟩
  · rintro ⟨z, htime, hzoned, hle⟩
    exact ⟨⟨hdate, htime⟩, z, hzoned, by omega⟩

theorem dateMatches_of_dayOf {c c' : ℤ} (h : dayOf c = dayOf c') : s.dateMatches c = s.dateMatches c' := by
  simp only [dateMatches, h]

theorem nextMinute_eq_some {c c' : ℤ} : nextMinute c = some c' ↔ c' = c + 1 ∧ dayOf c' ≤ Calendar.lastDay := by
  unfold nextMinute
  split
  · next h =>
      constructor
      · intro heq
        cases heq
        exact ⟨rfl, h⟩
      · rintro ⟨rfl, -⟩
        rfl
  · next h =>
      constructor
      · intro heq
        cases heq
      · rintro ⟨rfl, hlast⟩
        exact (h hlast).elim

theorem nextDay_eq_some {c c' : ℤ} : nextDay c = some c' ↔ c' = (dayOf c + 1) * 1440 ∧ dayOf c' ≤ Calendar.lastDay := by
  have hday : dayOf ((dayOf c + 1) * 1440) = dayOf c + 1 := by simp [dayOf]
  unfold nextDay
  split
  · next h =>
      constructor
      · intro heq
        cases heq
        exact ⟨rfl, by omega⟩
      · rintro ⟨rfl, -⟩
        rfl
  · next h =>
      constructor
      · intro heq
        cases heq
      · rintro ⟨rfl, hlast⟩
        omega

/-! ## The first due is found -/

/-- Nothing due lies between a start and the candidate. -/
def Passed (s : CronSchedule) (zone : Zone) (now start cand : ℤ) : Prop :=
  ∀ c, start < c → c < cand → ¬ s.Due zone now c

theorem Passed.nextMinute {start cand next : ℤ} (h : s.Passed zone now start cand) (hnot : ¬ s.Due zone now cand)
    (hnext : nextMinute cand = some next) : s.Passed zone now start next := by
  obtain ⟨rfl, -⟩ := nextMinute_eq_some.mp hnext
  intro c hstart hc
  rcases Int.lt_or_eq_of_le (Int.lt_add_one_iff.mp hc) with hlt | rfl
  · exact h c hstart hlt
  · exact hnot

theorem Passed.nextDay {start cand next : ℤ} (h : s.Passed zone now start cand) (hdate : s.dateMatches cand = false)
    (hnext : nextDay cand = some next) : s.Passed zone now start next := by
  obtain ⟨rfl, -⟩ := nextDay_eq_some.mp hnext
  intro c hstart hc
  by_cases hlt : c < cand
  · exact h c hstart hlt
  · have hday : dayOf c = dayOf cand := by
      unfold dayOf at hc ⊢
      omega
    rintro ⟨⟨hmatches, -⟩, -⟩
    rw [dateMatches_of_dayOf hday, hdate] at hmatches
    cases hmatches

theorem search_eq_some (hapart : s.Apart zone now) {start : ℤ} {steps : ℕ} {cand z : ℤ}
    (h : s.search zone now steps cand = some z) (hstart : start < cand) (hpassed : s.Passed zone now start cand) :
    ∃ c, IsLeast {c | start < c ∧ s.Due zone now c} c ∧ zone.toZoned c = some z := by
  induction steps generalizing cand with
  | zero => cases h
  | succ steps ih =>
    unfold search at h
    split at h
    · next hdate =>
        cases hfire : s.firingAt zone now cand with
        | some z' =>
          rw [hfire] at h
          cases h
          refine ⟨cand, ⟨⟨hstart, (due_iff_firingAt hapart hdate).mpr ⟨_, hfire⟩⟩, ?_⟩, (firingAt_eq_some.mp hfire).2.1⟩
          rintro c ⟨hc, hdue⟩
          by_contra hlt
          exact hpassed c hc (Int.not_le.mp hlt) hdue
        | none =>
          rw [hfire] at h
          obtain ⟨next, hnext, h⟩ := Option.bind_eq_some_iff.mp h
          have hnot : ¬ s.Due zone now cand := by
            intro hdue
            obtain ⟨z', hz'⟩ := (due_iff_firingAt hapart hdate).mp hdue
            rw [hfire] at hz'
            cases hz'
          have hlater := (nextMinute_eq_some.mp hnext).1
          exact ih h (by omega) (hpassed.nextMinute hnot hnext)
    · next hdate =>
        obtain ⟨next, hnext, h⟩ := Option.bind_eq_some_iff.mp h
        have hlater : cand < next := by
          have heq := (nextDay_eq_some.mp hnext).1
          unfold dayOf at heq
          omega
        exact ih h (by omega) (hpassed.nextDay (by simpa using hdate) hnext)

theorem search_later {steps : ℕ} {cand z : ℤ} (h : s.search zone now steps cand = some z) : now + 1000000000 ≤ z := by
  induction steps generalizing cand with
  | zero => cases h
  | succ steps ih =>
    unfold search at h
    split at h
    · cases hfire : s.firingAt zone now cand with
      | some z' =>
        rw [hfire] at h
        cases h
        exact (firingAt_eq_some.mp hfire).2.2
      | none =>
        rw [hfire] at h
        obtain ⟨next, -, h⟩ := Option.bind_eq_some_iff.mp h
        exact ih h
    · obtain ⟨next, -, h⟩ := Option.bind_eq_some_iff.mp h
      exact ih h

theorem nextAfter_later {z : ℤ} (h : s.nextAfter zone now = some z) : now + 1000000000 ≤ z := by
  obtain ⟨cand, -, h⟩ := Option.bind_eq_some_iff.mp h
  exact search_later h

end CronSchedule

end Search

end Ral.Schedule
