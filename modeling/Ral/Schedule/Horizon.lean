import Mathlib.Tactic.Linarith
import Ral.Schedule.Next

/-! # How far the search looks

Past the readings that may yet lie behind the given instant, a date that matches ends the search
on that day; every other costs one step. So the steps reach every minute due in the days
they allow.
-/

namespace Ral.Schedule.CronSchedule

/-- Some time of the day matches. -/
def Timed (s : CronSchedule) : Prop := ∃ hour minute, hour < 24 ∧ minute < 60 ∧ bit s.hour hour = true ∧ bit s.minute minute = true

theorem exists_bit_of_allows {f : Field} {spec : List Char} {mask : BitVec 64} (h : Allows f spec mask) :
    ∃ v, v ≤ f.max ∧ bit mask v = true := by
  obtain ⟨items, hitems, hbits⟩ := h
  obtain ⟨texts, hne, htrim, hspelled⟩ := hitems
  cases hspelled with
  | nil => exact (hne rfl).elim
  | @cons text i texts items hi hrest =>
    obtain ⟨-, hle, hmax, -⟩ := hi.bounds
    refine ⟨i.lo, by omega, (hbits i.lo).mpr ⟨i, List.mem_cons_self .., 0, by simp, hle⟩⟩

theorem timed_of_parse {expr : List Char} {s : CronSchedule} (h : parse expr = .ok s) : s.Timed := by
  obtain ⟨_, _, _, _, _, -, hminute, hhour, -⟩ := parse_eq_ok.mp h
  obtain ⟨minute, hm, hminute⟩ := exists_bit_of_allows hminute
  obtain ⟨hour, hh, hhour⟩ := exists_bit_of_allows hhour
  have hm : minute ≤ 59 := hm
  have hh : hour ≤ 23 := hh
  exact ⟨hour, minute, by omega, by omega, hhour, hminute⟩

section Search
variable [Calendar] {s : CronSchedule} {zone : Zone} {now : ℤ}

omit [Calendar] in
theorem exists_timeMatches (h : s.Timed) (day : ℤ) : ∃ x, dayOf x = day ∧ s.timeMatches x = true := by
  obtain ⟨hour, minute, hh, hm, hhour, hminute⟩ := h
  refine ⟨day * 1440 + hour * 60 + minute, ?_, ?_⟩
  · unfold dayOf
    omega
  · have hminuteOf : minuteOf (day * 1440 + hour * 60 + minute) = minute := by
      unfold minuteOf
      omega
    have hhourOf : hourOf (day * 1440 + hour * 60 + minute) = hour := by
      unfold hourOf
      omega
    rw [timeMatches, hminuteOf, hhourOf, hminute, hhour]
    rfl

def unsettled (zone : Zone) (now : ℤ) : ℤ := dayOf (minuteAt zone now + 3120)

theorem firingAt_of_settled (hnow : Calendar.earliest ≤ now) {cand : ℤ} (htime : s.timeMatches cand = true)
    (hsettled : unsettled zone now < dayOf cand) (hlast : dayOf cand + 3 ≤ Calendar.lastDay) :
    ∃ z, s.firingAt zone now cand = some z := by
  have hoffset := zone.offset_bound now
  have hcompatible := zone.compatible_bound cand
  have hlatest := Calendar.latest_shown
  have hlate : now + 1000000000 ≤ zone.reading cand := by
    unfold unsettled minuteAt Zone.shown dayOf at hsettled
    unfold Zone.reading
    omega
  have hheld : zone.reading cand ≤ Calendar.latest := by
    unfold dayOf at hlast
    unfold Zone.reading
    omega
  exact ⟨_, firingAt_eq_some.mpr ⟨htime, Zone.toZoned_eq_some.mpr ⟨rfl, by omega, hheld⟩, hlate⟩⟩

def effort (s : CronSchedule) (settles last cand : ℤ) : ℤ :=
  (last - dayOf cand) + 1440 * max 0 (settles + 1 - dayOf cand) +
    if s.dateMatches cand = true then 1440 * (dayOf cand + 1) - cand else 1440

def Ahead (s : CronSchedule) (settles cand : ℤ) : Prop :=
  settles < dayOf cand → s.dateMatches cand = true → ∃ x, cand ≤ x ∧ dayOf x = dayOf cand ∧ s.timeMatches x = true

theorem ahead_of_midnight (h : s.Timed) (settles day : ℤ) : s.Ahead settles (day * 1440) := by
  intro _ _
  obtain ⟨x, hday, htime⟩ := exists_timeMatches h (dayOf (day * 1440))
  refine ⟨x, ?_, hday, htime⟩
  unfold dayOf at hday
  omega

theorem effort_pos {settles last cand : ℤ} (h : dayOf cand ≤ last) : 1 ≤ s.effort settles last cand := by
  unfold effort
  split
  · unfold dayOf at *
    omega
  · omega

theorem effort_nextDay {settles last cand : ℤ} (hdate : s.dateMatches cand = false) :
    s.effort settles last ((dayOf cand + 1) * 1440) + 1 ≤ s.effort settles last cand := by
  have hday : dayOf ((dayOf cand + 1) * 1440) = dayOf cand + 1 := by simp [dayOf]
  have hcand : ¬ s.dateMatches cand = true := by simp [hdate]
  unfold effort
  rw [hday, if_neg hcand]
  split
  · omega
  · omega

theorem effort_nextMinute {settles last cand : ℤ} (hdate : s.dateMatches cand = true)
    (h : dayOf (cand + 1) = dayOf cand ∨ dayOf cand ≤ settles) :
    s.effort settles last (cand + 1) + 1 ≤ s.effort settles last cand := by
  by_cases hsame : dayOf (cand + 1) = dayOf cand
  · unfold effort
    rw [dateMatches_of_dayOf hsame, hsame, if_pos hdate, if_pos hdate]
    omega
  · have hsettles : dayOf cand ≤ settles := h.resolve_left hsame
    have hnext : dayOf (cand + 1) = dayOf cand + 1 := by
      unfold dayOf at *
      omega
    unfold effort
    rw [if_pos hdate, hnext]
    unfold dayOf at *
    split
    · omega
    · omega

/-- Steps enough for the effort find a firing no later than any minute due. -/
theorem search_ne_none (hapart : s.Apart zone now) (htimed : s.Timed) (hnow : Calendar.earliest ≤ now) {c : ℤ}
    (hdue : s.Due zone now c) (hlast : dayOf c + 3 ≤ Calendar.lastDay) {steps : ℕ} {cand : ℤ} (hle : cand ≤ c)
    (heffort : s.effort (unsettled zone now) (dayOf c) cand ≤ steps) (hahead : s.Ahead (unsettled zone now) cand) :
    ∃ z, s.search zone now steps cand = some z := by
  induction steps generalizing cand with
  | zero =>
    have hpos : 1 ≤ s.effort (unsettled zone now) (dayOf c) cand := effort_pos (by unfold dayOf; omega)
    simp at heffort
    omega
  | succ steps ih =>
    have hcandDay : dayOf cand ≤ dayOf c := by
      unfold dayOf
      omega
    unfold search
    cases hdate : s.dateMatches cand with
    | true =>
      cases hfire : s.firingAt zone now cand with
      | some z => exact ⟨z, by simp⟩
      | none =>
        have hne : cand ≠ c := by
          rintro rfl
          obtain ⟨z, hz⟩ := (due_iff_firingAt hapart hdate).mp hdue
          rw [hfire] at hz
          cases hz
        have hreach : cand + 1 ≤ c := by omega
        -- a time that matches on a settled day would have fired
        have hquiet : unsettled zone now < dayOf cand → s.timeMatches cand = false := by
          intro hsettled
          rw [← Bool.not_eq_true]
          intro htime
          obtain ⟨z, hz⟩ := firingAt_of_settled hnow htime hsettled (by omega)
          rw [hfire] at hz
          cases hz
        have hlater : unsettled zone now < dayOf cand →
            ∃ x, cand + 1 ≤ x ∧ dayOf x = dayOf cand ∧ s.timeMatches x = true := by
          intro hsettled
          obtain ⟨x, hx, hday, htime⟩ := hahead hsettled hdate
          refine ⟨x, ?_, hday, htime⟩
          rcases Int.lt_or_eq_of_le hx with hlt | rfl
          · omega
          · rw [hquiet hsettled] at htime
            cases htime
        have hnextLast : dayOf (cand + 1) ≤ dayOf c := by
          unfold dayOf
          omega
        have hnext : nextMinute cand = some (cand + 1) := nextMinute_eq_some.mpr ⟨rfl, by omega⟩
        have hcost : dayOf (cand + 1) = dayOf cand ∨ dayOf cand ≤ unsettled zone now := by
          by_cases hsettled : unsettled zone now < dayOf cand
          · obtain ⟨x, hx, hday, -⟩ := hlater hsettled
            left
            unfold dayOf at hday ⊢
            omega
          · right
            omega
        have hdecrease : s.effort (unsettled zone now) (dayOf c) (cand + 1) + 1
            ≤ s.effort (unsettled zone now) (dayOf c) cand := effort_nextMinute hdate hcost
        have hmidday : s.Ahead (unsettled zone now) (cand + 1) := by
          by_cases hsame : dayOf (cand + 1) = dayOf cand
          · intro hsettled _
            rw [hsame] at hsettled ⊢
            exact hlater hsettled
          · have hmidnight : cand + 1 = (dayOf cand + 1) * 1440 := by
              unfold dayOf at hsame ⊢
              omega
            rw [hmidnight]
            exact ahead_of_midnight htimed _ _
        obtain ⟨z, hz⟩ := ih hreach (by push_cast at heffort; linarith) hmidday
        exact ⟨z, by simp [hnext, hz]⟩
    | false =>
      have hother : dayOf c ≠ dayOf cand := by
        intro hsame
        have hmatches := hdue.1.1
        rw [dateMatches_of_dayOf hsame, hdate] at hmatches
        cases hmatches
      have hreach : (dayOf cand + 1) * 1440 ≤ c := by
        unfold dayOf at *
        omega
      have hnextLast : dayOf ((dayOf cand + 1) * 1440) ≤ Calendar.lastDay := by
        have hday : dayOf ((dayOf cand + 1) * 1440) = dayOf cand + 1 := by simp [dayOf]
        omega
      have hnext : nextDay cand = some ((dayOf cand + 1) * 1440) := nextDay_eq_some.mpr ⟨rfl, hnextLast⟩
      have hdecrease : s.effort (unsettled zone now) (dayOf c) ((dayOf cand + 1) * 1440) + 1
          ≤ s.effort (unsettled zone now) (dayOf c) cand := effort_nextDay hdate
      obtain ⟨z, hz⟩ := ih hreach (by push_cast at heffort; linarith) (ahead_of_midnight htimed _ _)
      exact ⟨z, by simp [hnext, hz]⟩

/-- The instants that first show a minute that matches. -/
def Firings (s : CronSchedule) (zone : Zone) : Set ℤ :=
  {t | t ≤ Calendar.latest ∧ ∃ c, s.Matches c ∧ zone.Shows t c ∧ ∀ u, u < t → ¬ zone.Shows u c}

theorem due_of_firing (horderly : zone.Orderly) (hnow : Calendar.earliest ≤ now) {t : ℤ} (hlt : now < t)
    (ht : t ∈ s.Firings zone) : ∃ c, minuteAt zone now < c ∧ s.Due zone now c ∧ zone.toZoned c = some t ∧ zone.Shows t c := by
  obtain ⟨hlatest, c, hmatches, hshows, hfirst⟩ := ht
  have hreading := Zone.reading_eq_of_first hshows hfirst
  have hzoned : zone.toZoned c = some t := Zone.toZoned_eq_some.mpr ⟨hreading, by omega, hlatest⟩
  refine ⟨c, ?_, ⟨hmatches, t, hzoned, hlt⟩, hzoned, hshows⟩
  have hshown : zone.shown now < zone.shown t := by
    apply horderly now t hlt
    intro u hu heq
    exact hfirst u hu (heq.trans hshows)
  have hminute : zone.shown t = c * 60000000000 := hshows
  unfold minuteAt
  omega

theorem first_of_reading {z c : ℤ} (hzoned : zone.toZoned c = some z) (hshown : ∃ t, zone.Shows t c) :
    zone.Shows z c ∧ ∀ u, u < z → ¬ zone.Shows u c := by
  obtain ⟨rfl, -⟩ := Zone.toZoned_eq_some.mp hzoned
  obtain ⟨t, ht⟩ := hshown
  refine ⟨Zone.shows_reading ht, fun u hu hshows => ?_⟩
  have hle := Zone.reading_le hshows
  omega

theorem isLeast_of_due (horderly : zone.Orderly) (hnow : Calendar.earliest ≤ now) {c z : ℤ}
    (hleast : IsLeast {c | minuteAt zone now < c ∧ s.Due zone now c} c) (hzoned : zone.toZoned c = some z)
    (hshown : ∃ t, zone.Shows t c) : IsLeast {t | now < t ∧ t ∈ s.Firings zone} z := by
  obtain ⟨hshows, hfirst⟩ := first_of_reading hzoned hshown
  obtain ⟨⟨-, hmatches, z', hzoned', hlt⟩, hlower⟩ := hleast
  rw [hzoned] at hzoned'
  cases hzoned'
  refine ⟨⟨hlt, (Zone.toZoned_eq_some.mp hzoned).2.2, c, hmatches, hshows, hfirst⟩, ?_⟩
  rintro t ⟨hnowt, ht⟩
  obtain ⟨c', hminute, hdue, -, hshows'⟩ := due_of_firing horderly hnow hnowt ht
  have hle : c ≤ c' := hlower ⟨hminute, hdue⟩
  by_contra hbefore
  have hless : zone.shown t < zone.shown z := by
    apply horderly t z (Int.not_le.mp hbefore)
    intro u hu heq
    exact hfirst u hu (heq.trans hshows)
  rw [hshows, hshows'] at hless
  omega

theorem nextAfter_eq_some (hapart : s.Apart zone now) {z : ℤ} (h : s.nextAfter zone now = some z) :
    ∃ c, IsLeast {c | minuteAt zone now < c ∧ s.Due zone now c} c ∧ zone.toZoned c = some z := by
  obtain ⟨cand, hcand, hsearch⟩ := Option.bind_eq_some_iff.mp h
  obtain ⟨rfl, -⟩ := nextMinute_eq_some.mp hcand
  apply search_eq_some hapart hsearch (by omega)
  intro c hstart hc
  omega

theorem nextAfter_eq_none (htimed : s.Timed) (hapart : s.Apart zone now) (hnow : Calendar.earliest ≤ now)
    (h : s.nextAfter zone now = none) {c : ℤ} (hc : minuteAt zone now < c)
    (hnear : dayOf c ≤ dayOf (minuteAt zone now) + 30840) (hlast : dayOf c + 3 ≤ Calendar.lastDay) : ¬ s.Due zone now c := by
  intro hdue
  have hstart : minuteAt zone now + 1 ≤ c := hc
  have hday : dayOf (minuteAt zone now + 1) ≤ Calendar.lastDay := by
    unfold dayOf at *
    omega
  have heffort : s.effort (unsettled zone now) (dayOf c) (minuteAt zone now + 1) ≤ maxSteps := by
    unfold effort unsettled maxSteps
    unfold dayOf at *
    split
    · omega
    · omega
  have hahead : s.Ahead (unsettled zone now) (minuteAt zone now + 1) := by
    intro hsettled
    unfold unsettled dayOf at hsettled
    omega
  obtain ⟨z, hz⟩ := search_ne_none hapart htimed hnow hdue hlast hstart heffort hahead
  rw [nextAfter, nextMinute_eq_some.mpr ⟨rfl, hday⟩, Option.bind_some, hz] at h
  cases h

/-- The next firing is the reading of the first minute due, and where that minute is shown the
first instant to show one that matches; none is found only past the horizon. -/
theorem nextAfter_least {expr : List Char} (hparse : parse expr = .ok s) (hnow : Calendar.earliest ≤ now)
    (hapart : s.Apart zone now) :
    (∀ z, s.nextAfter zone now = some z → ∃ c, IsLeast {c | minuteAt zone now < c ∧ s.Due zone now c} c ∧
      zone.toZoned c = some z ∧
      (zone.Orderly → (∃ t, zone.Shows t c) → IsLeast {t | now < t ∧ t ∈ s.Firings zone} z)) ∧
    (s.nextAfter zone now = none → ∀ c, minuteAt zone now < c → dayOf c ≤ dayOf (minuteAt zone now) + 30840 →
      dayOf c + 3 ≤ Calendar.lastDay → ¬ s.Due zone now c) := by
  constructor
  · intro z hz
    obtain ⟨c, hleast, hzoned⟩ := nextAfter_eq_some hapart hz
    exact ⟨c, hleast, hzoned, fun horderly hshown => isLeast_of_due horderly hnow hleast hzoned hshown⟩
  · intro h c hc hnear hlast
    exact nextAfter_eq_none (timed_of_parse hparse) hapart hnow h hc hnear hlast

/-! ## Firing after firing -/

/-- Each found from the one before, so many at most. -/
def firingsFrom (s : CronSchedule) (zone : Zone) : ℤ → ℕ → List ℤ
  | _, 0 => []
  | now, n + 1 =>
    match s.nextAfter zone now with
    | none => []
    | some z => z :: s.firingsFrom zone z n

/-- A zone is off by whole seconds, so every civil minute is read on one. -/
theorem second_of_toZoned {c z : ℤ} (hzoned : zone.toZoned c = some z) : z % 1000000000 = 0 := by
  obtain ⟨rfl, -⟩ := Zone.toZoned_eq_some.mp hzoned
  unfold Zone.reading
  omega

theorem apart_of_second (hnow : now % 1000000000 = 0) : s.Apart zone now := by
  intro c t _ hzoned hlt
  have hread := second_of_toZoned hzoned
  omega

/-- Where the clock skips no minute that matches, asking again from each firing misses none and repeats none. -/
theorem firingsFrom_exact (horderly : zone.Orderly) (hshown : ∀ c, s.Matches c → ∃ t, zone.Shows t c)
    (hnow : Calendar.earliest ≤ now) (hsecond : now % 1000000000 = 0) (n : ℕ) :
    (now :: s.firingsFrom zone now n).Pairwise (· < ·) ∧
      ∀ t, now < t → ∀ z ∈ s.firingsFrom zone now n, t ≤ z → (t ∈ s.firingsFrom zone now n ↔ t ∈ s.Firings zone) := by
  induction n generalizing now with
  | zero => exact ⟨List.pairwise_singleton _ _, fun t _ z hz => (nomatch hz)⟩
  | succ n ih =>
    unfold firingsFrom
    cases hnext : s.nextAfter zone now with
    | none => exact ⟨List.pairwise_singleton _ _, fun t _ z hz => (nomatch hz)⟩
    | some first =>
      obtain ⟨c, hleast, hzoned⟩ := nextAfter_eq_some (apart_of_second hsecond) hnext
      have hfirst := isLeast_of_due horderly hnow hleast hzoned (hshown c hleast.1.2.1)
      have hlater : now < first := hfirst.1.1
      obtain ⟨hsorted, hexact⟩ := ih (by omega) (second_of_toZoned hzoned)
      have hafter : ∀ z ∈ s.firingsFrom zone first n, first < z := (List.pairwise_cons.mp hsorted).1
      refine ⟨List.pairwise_cons.mpr ⟨?_, hsorted⟩, ?_⟩
      · intro z hz
        rcases List.mem_cons.mp hz with rfl | hz
        · exact hlater
        · exact hlater.trans (hafter z hz)
      · intro t ht z hz hle
        constructor
        · intro hmem
          rcases List.mem_cons.mp hmem with rfl | hmem
          · exact hfirst.1.2
          · exact (hexact t (hafter t hmem) t hmem le_rfl).mp hmem
        · intro hfires
          have hbound : first ≤ t := hfirst.2 ⟨ht, hfires⟩
          rcases hbound.eq_or_lt with rfl | hlt
          · exact List.mem_cons_self
          · have hz : z ∈ s.firingsFrom zone first n := by
              rcases List.mem_cons.mp hz with rfl | hz
              · omega
              · exact hz
            exact List.mem_cons_of_mem _ ((hexact t hlt z hz hle).mpr hfires)

end Search

/-! ## A night the clock goes back -/

/-- The proleptic Gregorian calendar, days counted from 1970. -/
@[reducible] def gregorian : Calendar where
  month n :=
    let doe := (n + 719468) % 146097
    let yoe := (doe - doe / 1460 + doe / 36524 - doe / 146096) / 365
    let mp := (5 * (doe - (365 * yoe + yoe / 4 - yoe / 100)) + 2) / 153
    (if mp < 10 then mp + 3 else mp - 9).toNat
  day n :=
    let doe := (n + 719468) % 146097
    let yoe := (doe - doe / 1460 + doe / 36524 - doe / 146096) / 365
    let doy := doe - (365 * yoe + yoe / 4 - yoe / 100)
    (doy - (153 * ((5 * doy + 2) / 153) + 2) / 5 + 1).toNat
  weekday n := ((n + 4) % 7).toNat
  lastDay := 2932896
  earliest := -377705023201000000000
  latest := 253402207200999999999
  latest_shown := by decide

/-- Behind by four hours, and by five from six o'clock of 2026-11-01 on. -/
def fallingBack : Zone where
  offset t := if t < (20758 * 24 + 6) * 3600000000000 then -14400 else -18000
  compatible c := if c < (20758 * 24 + 2) * 60 then -14400 else -18000
  offset_bound t := by split <;> omega
  compatible_bound c := by split <;> omega
  earlier t c h := by
    split at h <;> split <;> split <;> omega

def everyMinute : List Char := ['*', ' ', '*', ' ', '*', ' ', '*', ' ', '*']

def thatNight (minutes : ℤ) : ℤ := (20758 * 1440 + minutes) * 60000000000

/-- From the last minute before the clock goes back the hour shown again is passed over. -/
theorem repeated_hour_passed_over : ∃ s, parse everyMinute = .ok s ∧
    @nextAfter gregorian s fallingBack (thatNight 359) = some (thatNight 420) ∧
    thatNight 359 < thatNight 360 ∧ thatNight 360 < thatNight 420 ∧
    ∃ c, fallingBack.Shows (thatNight 360) c ∧ @Matches gregorian s c := by
  refine ⟨_, rfl, ?_, by decide, by decide, 20758 * 1440 + 60, ?_, ?_⟩
  · decide +kernel
  · show fallingBack.shown (thatNight 360) = (20758 * 1440 + 60) * 60000000000
    decide
  · constructor
    · decide +kernel
    · decide +kernel

theorem nextAfter_least_afterwards : ∃ s, parse everyMinute = .ok s ∧
    ∃ c, @Due gregorian s fallingBack (thatNight 420) c ∧ @Zone.toZoned gregorian fallingBack c = some (thatNight 421) := by
  let _ : Calendar := gregorian
  refine ⟨_, rfl, ?_⟩
  obtain ⟨c, hleast, hzoned, -⟩ := (@nextAfter_least gregorian _ fallingBack (thatNight 420) everyMinute rfl (by decide)
    (apart_of_second (by decide))).1 (thatNight 421) (by decide +kernel)
  exact ⟨c, hleast.1.2, hzoned⟩

/-- Behind nothing and ahead of nothing. -/
def utc : Zone where
  offset _ := 0
  compatible _ := 0
  offset_bound _ := by omega
  compatible_bound _ := by omega
  earlier t c h := by omega

theorem firingsFrom_exact_utc : ∃ s, parse everyMinute = .ok s ∧ thatNight 2 ∈ @Firings gregorian s utc := by
  let _ : Calendar := gregorian
  refine ⟨_, rfl, ?_⟩
  refine ((@firingsFrom_exact gregorian _ utc (thatNight 0) ?_ ?_ (by decide) (by decide) 2).2 (thatNight 2)
    (by decide) (thatNight 2) (by decide +kernel) le_rfl).mp (by decide +kernel)
  · intro t t' hlt _
    simpa [Zone.shown, utc] using hlt
  · intro c _
    exact ⟨c * 60000000000, by simp [Zone.Shows, Zone.shown, utc]⟩

end Ral.Schedule.CronSchedule
