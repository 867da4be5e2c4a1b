import Ral.Schedule.Grammar

/-! # Five fields

A cron is a mask for each of its fields. With both day fields restricted a day matches on either.
-/

namespace Ral.Schedule
open Ral.Syntax (isWhitespace)
open Ral.Fallible (bind_eq_ok)

def splitWhitespace (s : List Char) : List (List Char) := (s.splitOnP isWhitespace).filter (· ≠ [])

/-- One mask a field, and whether each day field was a star, which selects the day rule. -/
structure CronSchedule where
  minute : BitVec 64
  hour : BitVec 64
  dom : BitVec 64
  month : BitVec 64
  dow : BitVec 64
  domStar : Bool
  dowStar : Bool
deriving DecidableEq

def foldSunday (dow : BitVec 64) : BitVec 64 :=
  if dow &&& 1#64 <<< 7 ≠ 0 then dow &&& ~~~(1#64 <<< 7) ||| 1 else dow

namespace CronSchedule

/-- Minute, hour, day of month, month and day of week. -/
def parse (expr : List Char) : Except String CronSchedule :=
  match splitWhitespace expr with
  | [minute, hour, dom, month, dow] => do
      let minuteMask ← parseField .minute minute
      let hourMask ← parseField .hour hour
      let domMask ← parseField .dom dom
      let monthMask ← parseField .month month
      let dowMask ← parseField .dow dow
      return ⟨minuteMask, hourMask, domMask, monthMask, foldSunday dowMask, trim dom = ['*'], trim dow = ['*']⟩
  | fields => .error ("a cron expression has five fields (minute hour day-of-month month day-of-week), got " ++
      toString fields.length)

end CronSchedule

def bit (mask : BitVec 64) (v : ℕ) : Bool := mask.getLsbD v

/-! ## What is parsed -/

theorem and_seven_ne_zero {dow : BitVec 64} : dow &&& 1#64 <<< 7 ≠ 0 ↔ dow.getLsbD 7 = true := by
  have htwoPow : 1#64 <<< 7 = BitVec.twoPow 64 7 := by decide
  rw [htwoPow, BitVec.and_twoPow]
  cases dow.getLsbD 7 <;> decide

theorem getLsbD_foldSunday {dow : BitVec 64} {v : ℕ} : (foldSunday dow).getLsbD v = true ↔
    (v ≠ 7 ∧ dow.getLsbD v = true) ∨ (v = 0 ∧ dow.getLsbD 7 = true) := by
  unfold foldSunday
  split
  · next hseven =>
      have hset := and_seven_ne_zero.mp hseven
      have hbound : dow.getLsbD v = true → v < 64 := BitVec.lt_of_getLsbD
      rw [hset, BitVec.getLsbD_or, BitVec.getLsbD_and, BitVec.getLsbD_not, BitVec.getLsbD_shiftLeft]
      cases hv : dow.getLsbD v <;> simp [hv] at hbound ⊢
      omega
  · next hseven =>
      have hclear : dow.getLsbD 7 = false := by
        rw [← Bool.not_eq_true]
        exact fun h => hseven (and_seven_ne_zero.mpr h)
      simp only [hclear, Bool.false_eq_true, and_false, or_false]
      constructor
      · intro h
        refine ⟨?_, h⟩
        rintro rfl
        rw [hclear] at h
        cases h
      · exact And.right

def Allows (f : Field) (spec : List Char) (mask : BitVec 64) : Prop :=
  ∃ items, Listed f spec items ∧ ∀ v, mask.getLsbD v = true ↔ ∃ i ∈ items, i.Denotes v

/-- The same of weekdays, the seventh being Sunday too. -/
def AllowsDays (spec : List Char) (mask : BitVec 64) : Prop :=
  ∃ items, Listed .dow spec items ∧ ∀ v, mask.getLsbD v = true ↔ ∃ i ∈ items, ∃ u, i.Denotes u ∧ v = u % 7

theorem denotes_day {spec : List Char} {items : List Item} (h : Listed .dow spec items) (v : ℕ) :
    (∃ i ∈ items, ∃ u, i.Denotes u ∧ v = u % 7) ↔
      (v ≠ 7 ∧ ∃ i ∈ items, i.Denotes v) ∨ (v = 0 ∧ ∃ i ∈ items, i.Denotes 7) := by
  constructor
  · rintro ⟨i, hi, u, hu, rfl⟩
    have hle : u ≤ 7 := (h.denotes_le hi hu).2
    rcases Nat.lt_or_ge u 7 with hlt | hge
    · left
      rw [Nat.mod_eq_of_lt hlt]
      exact ⟨by omega, i, hi, hu⟩
    · right
      obtain rfl : u = 7 := by omega
      exact ⟨rfl, i, hi, hu⟩
  · rintro (⟨hne, i, hi, hv⟩ | ⟨rfl, i, hi, hseven⟩)
    · have hle : v ≤ 7 := (h.denotes_le hi hv).2
      exact ⟨i, hi, v, hv, (Nat.mod_eq_of_lt (by omega)).symm⟩
    · exact ⟨i, hi, 7, hseven, rfl⟩

theorem allowsDays_iff {spec : List Char} {mask : BitVec 64} :
    AllowsDays spec mask ↔ ∃ dow, parseField .dow spec = .ok dow ∧ foldSunday dow = mask := by
  have hfold {items : List Item} (hitems : Listed .dow spec items) {dow : BitVec 64}
      (hbits : ∀ v, dow.getLsbD v = true ↔ ∃ i ∈ items, i.Denotes v) (v : ℕ) :
      (foldSunday dow).getLsbD v = true ↔ ∃ i ∈ items, ∃ u, i.Denotes u ∧ v = u % 7 := by
    rw [getLsbD_foldSunday, denotes_day hitems, hbits, hbits]
  constructor
  · rintro ⟨items, hitems, hmask⟩
    obtain ⟨dow, hparse, hbits⟩ := hitems.parsed
    refine ⟨dow, hparse, ?_⟩
    apply BitVec.eq_of_getLsbD_eq
    intro v hv
    rw [Bool.eq_iff_iff, hfold hitems hbits, hmask]
  · rintro ⟨dow, hparse, rfl⟩
    obtain ⟨items, hitems, hbits⟩ := parseField_eq_ok.mp hparse
    exact ⟨items, hitems, hfold hitems hbits⟩

namespace CronSchedule

/-- Read exactly where each of five fields is in its grammar, as the masks of what they allow. -/
theorem parse_eq_ok {expr : List Char} {s : CronSchedule} : parse expr = .ok s ↔
    ∃ minute hour dom month dow, splitWhitespace expr = [minute, hour, dom, month, dow] ∧
      Allows .minute minute s.minute ∧ Allows .hour hour s.hour ∧ Allows .dom dom s.dom ∧
      Allows .month month s.month ∧ AllowsDays dow s.dow ∧
      s.domStar = decide (trim dom = ['*']) ∧ s.dowStar = decide (trim dow = ['*']) := by
  simp only [Allows, ← parseField_eq_ok, allowsDays_iff]
  unfold parse
  split
  · next minute hour dom month dow hfields =>
      simp only [bind_eq_ok]
      constructor
      · rintro ⟨_, hminute, _, hhour, _, hdom, _, hmonth, dowMask, hdow, h⟩
        cases h
        exact ⟨minute, hour, dom, month, dow, hfields, hminute, hhour, hdom, hmonth, ⟨dowMask, hdow, rfl⟩, rfl, rfl⟩
      · rintro ⟨_, _, _, _, _, hsplit, hminute, hhour, hdom, hmonth, ⟨dowMask, hdow, hfold⟩, hdomStar, hdowStar⟩
        rw [hfields] at hsplit
        cases hsplit
        refine ⟨_, hminute, _, hhour, _, hdom, _, hmonth, _, hdow, ?_⟩
        rw [hfold, ← hdomStar, ← hdowStar]
        rfl
  · next hnot =>
      constructor
      · intro h
        cases h
      · rintro ⟨minute, hour, dom, month, dow, hfields, -⟩
        exact (hnot _ _ _ _ _ hfields).elim

/-- Every field of a cron is read as its grammar says. -/
theorem parse_exact : (∀ (f : Field) (spec : List Char) (mask : BitVec 64), parseField f spec = .ok mask ↔ Allows f spec mask) ∧
    ∀ (expr : List Char) (s : CronSchedule), parse expr = .ok s ↔
      ∃ minute hour dom month dow, splitWhitespace expr = [minute, hour, dom, month, dow] ∧
        Allows .minute minute s.minute ∧ Allows .hour hour s.hour ∧ Allows .dom dom s.dom ∧
        Allows .month month s.month ∧ AllowsDays dow s.dow ∧
        s.domStar = decide (trim dom = ['*']) ∧ s.dowStar = decide (trim dow = ['*']) :=
  ⟨fun _ _ _ => parseField_eq_ok, fun _ _ => parse_eq_ok⟩

end CronSchedule

end Ral.Schedule
