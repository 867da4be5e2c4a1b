import Mathlib.Data.List.Nodup
import Ral.Core.Fallible
import Ral.Schedule.Field

/-! # The grammar of a field

Stated apart from the parser, which accepts exactly it; a bit of the mask is set for each value
some item of the list denotes.
-/

namespace Ral.Schedule
open Ral.Syntax (isWhitespace)
open Ral.Fallible (bind_eq_ok)

/-! ## The grammar -/

/-- A decimal number, with a plus or without. -/
inductive Numeral : List Char → ℕ → Prop
  | plain {digits : List Char} (h : digits ≠ []) (hd : ∀ c ∈ digits, c.isDigit = true) :
      Numeral digits (Nat.ofDigitChars 10 digits 0)
  | plus {digits : List Char} (h : digits ≠ []) (hd : ∀ c ∈ digits, c.isDigit = true) :
      Numeral ('+' :: digits) (Nat.ofDigitChars 10 digits 0)

/-- A value of the field by number or by name, whatever space is around it. -/
inductive Atom (f : Field) : List Char → ℕ → Prop
  | number {tok : List Char} {v : ℕ} (h : Numeral (trim tok) v) (hmin : f.min ≤ v) (hmax : v ≤ f.max) : Atom f tok v
  | name {tok : List Char} {v : ℕ} (h : ((trim tok).map Char.toLower, v) ∈ f.names) (hmin : f.min ≤ v)
      (hmax : v ≤ f.max) : Atom f tok v

/-- A step fits a `u8`. -/
structure Step (s : List Char) (step : ℕ) : Prop where
  numeral : Numeral s step
  positive : 0 < step
  byte : step ≤ 255

/-- From `lo` on, `step` apart, through `hi`. -/
structure Item where
  lo : ℕ
  hi : ℕ
  step : ℕ

def Item.Denotes (i : Item) (v : ℕ) : Prop := ∃ k, v = i.lo + k * i.step ∧ v ≤ i.hi

inductive Spelled (f : Field) : List Char → Item → Prop
  | star : Spelled f ['*'] ⟨f.min, f.max, 1⟩
  | value {a : List Char} {v : ℕ} (h : Atom f a v) : Spelled f a ⟨v, v, 1⟩
  | range {a b : List Char} {lo hi : ℕ} (ha : Atom f a lo) (hb : Atom f b hi) (h : lo ≤ hi) :
      Spelled f (a ++ '-' :: b) ⟨lo, hi, 1⟩
  | starStep {s : List Char} {step : ℕ} (hs : Step s step) : Spelled f ('*' :: '/' :: s) ⟨f.min, f.max, step⟩
  | valueStep {a s : List Char} {v step : ℕ} (h : Atom f a v) (hs : Step s step) :
      Spelled f (a ++ '/' :: s) ⟨v, f.max, step⟩
  | rangeStep {a b s : List Char} {lo hi step : ℕ} (ha : Atom f a lo) (hb : Atom f b hi) (h : lo ≤ hi)
      (hs : Step s step) : Spelled f (a ++ '-' :: b ++ '/' :: s) ⟨lo, hi, step⟩

def Listed (f : Field) (spec : List Char) (items : List Item) : Prop :=
  ∃ texts, texts ≠ [] ∧ trim spec = [','].intercalate texts ∧ List.Forall₂ (Spelled f) texts items

/-! ## Splitting -/

theorem splitOnce_eq_some {sep : Char} {s a b : List Char} :
    splitOnce sep s = some (a, b) ↔ s = a ++ sep :: b ∧ sep ∉ a := by
  induction s generalizing a with
  | nil => simp [splitOnce]
  | cons c rest ih =>
    unfold splitOnce
    split
    · next hc =>
        subst hc
        constructor
        · intro h
          cases h
          simp
        · rintro ⟨hs, hnot⟩
          cases a with
          | nil => simpa using hs
          | cons d a => simp_all
    · next hc =>
        rw [Option.map_eq_some_iff]
        constructor
        · rintro ⟨⟨a', b'⟩, hsplit, heq⟩
          cases heq
          obtain ⟨rfl, hnot⟩ := ih.mp hsplit
          refine ⟨rfl, ?_⟩
          rintro (_ | ⟨_, hmem⟩)
          · exact hc rfl
          · exact hnot hmem
        · rintro ⟨hs, hnot⟩
          cases a with
          | nil => exact (hc (List.cons.inj hs).1).elim
          | cons d a =>
            obtain ⟨rfl, hrest⟩ := List.cons.inj hs
            exact ⟨(a, b), ih.mpr ⟨hrest, fun hmem => hnot (List.mem_cons_of_mem _ hmem)⟩, rfl⟩

theorem splitOnce_eq_none {sep : Char} {s : List Char} : splitOnce sep s = none ↔ sep ∉ s := by
  induction s with
  | nil => simp [splitOnce]
  | cons c rest ih =>
    unfold splitOnce
    split
    · next hc => simp [hc]
    · next hc => simp [ih, Ne.symm hc]

theorem mem_dropWhile_or {p : Char → Bool} {s : List Char} {c : Char} (h : c ∈ s) : c ∈ s.dropWhile p ∨ p c = true := by
  rw [← List.takeWhile_append_dropWhile (p := p) (l := s), List.mem_append] at h
  rcases h with h | h
  · exact .inr (List.all_eq_true.mp List.all_takeWhile _ h)
  · exact .inl h

theorem mem_trim_or {s : List Char} {c : Char} (h : c ∈ s) : c ∈ trim s ∨ isWhitespace c = true := by
  rcases mem_dropWhile_or (p := isWhitespace) h with h | h
  · rcases mem_dropWhile_or (p := isWhitespace) (List.mem_reverse.mpr h) with h | h
    · exact .inl (List.mem_reverse.mpr h)
    · exact .inr h
  · exact .inr h

/-! ## Numbers -/

theorem decimal_eq_some {digits : List Char} {v : ℕ} : decimal digits = some v ↔
    digits ≠ [] ∧ (∀ c ∈ digits, c.isDigit = true) ∧ Nat.ofDigitChars 10 digits 0 = v ∧ v ≤ 255 := by
  unfold decimal
  split
  · next h =>
      obtain ⟨hne, hdigits, hle⟩ := h
      constructor
      · intro heq
        cases heq
        exact ⟨hne, hdigits, rfl, hle⟩
      · rintro ⟨-, -, rfl, -⟩
        rfl
  · next h =>
      constructor
      · intro heq
        cases heq
      · rintro ⟨hne, hdigits, rfl, hle⟩
        exact (h ⟨hne, hdigits, hle⟩).elim

theorem parseU8_eq_some {s : List Char} {v : ℕ} : parseU8 s = some v ↔ Numeral s v ∧ v ≤ 255 := by
  unfold parseU8
  split
  · next digits =>
      rw [decimal_eq_some]
      constructor
      · rintro ⟨hne, hdigits, rfl, hle⟩
        exact ⟨.plus hne hdigits, hle⟩
      · rintro ⟨hnumeral, hle⟩
        cases hnumeral with
        | plain hne hdigits =>
          have hplus := hdigits '+' (by simp)
          simp at hplus
        | plus hne hdigits => exact ⟨hne, hdigits, rfl, hle⟩
  · next hplus =>
      rw [decimal_eq_some]
      constructor
      · rintro ⟨hne, hdigits, rfl, hle⟩
        exact ⟨.plain hne hdigits, hle⟩
      · rintro ⟨hnumeral, hle⟩
        cases hnumeral with
        | plain hne hdigits => exact ⟨hne, hdigits, rfl, hle⟩
        | plus hne hdigits => exact (hplus _ rfl).elim

theorem Numeral.mem {s : List Char} {v : ℕ} (h : Numeral s v) {c : Char} (hc : c ∈ s) : c = '+' ∨ c.isDigit = true := by
  cases h with
  | plain hne hdigits => exact .inr (hdigits c hc)
  | plus hne hdigits =>
    rcases List.mem_cons.mp hc with rfl | hc
    · exact .inl rfl
    · exact .inr (hdigits c hc)

theorem Numeral.ne_nil {s : List Char} {v : ℕ} (h : Numeral s v) : s ≠ [] := by
  cases h with
  | plain hne hdigits => exact hne
  | plus hne hdigits => exact List.cons_ne_nil _ _

theorem Numeral.unique {s : List Char} {v w : ℕ} (hv : Numeral s v) (hw : Numeral s w) : v = w := by
  have hdigit : ('+').isDigit = false := by decide
  cases hv with
  | plain hne hdigits =>
    cases hw with
    | plain => rfl
    | plus => simp [hdigit] at hdigits
  | plus hne hdigits =>
    cases hw with
    | plain hne' hdigits' => simp [hdigit] at hdigits'
    | plus => rfl

/-! ## Atoms -/

variable {f : Field}

theorem Field.lower_of_name {f : Field} {s : List Char} {v : ℕ} (h : (s.map Char.toLower, v) ∈ f.names) {c : Char} (hc : c ∈ s) :
    c.toLower.isLower = true :=
  (f.alphabetic _ h).2 _ (List.mem_map_of_mem hc)

theorem isLower_toLower_of_isDigit {c : Char} (h : c.isDigit = true) : c.toLower.isLower = false := by
  have hrange : 48 ≤ c.val.toNat ∧ c.val.toNat ≤ 57 := Char.isDigit_iff_toNat.mp h
  have hupper : ¬ (c.val ≥ 'A'.val ∧ c.val ≤ 'Z'.val) := by
    rw [ge_iff_le, UInt32.le_iff_toNat_le]
    rintro ⟨hle, -⟩
    have hA : ('A').val.toNat = 65 := rfl
    omega
  rw [Char.toLower, dif_neg hupper, ← Bool.not_eq_true]
  intro hlower
  simp only [Char.isLower, Bool.and_eq_true, decide_eq_true_eq, ge_iff_le, UInt32.le_iff_toNat_le] at hlower
  have ha : ('a').val.toNat = 97 := rfl
  omega

theorem Field.not_numeral_of_name {f : Field} {s : List Char} {v w : ℕ} (h : (s.map Char.toLower, v) ∈ f.names) :
    ¬ Numeral s w := by
  intro hnumeral
  obtain ⟨c, hc⟩ := List.exists_mem_of_ne_nil s hnumeral.ne_nil
  have hlower := Field.lower_of_name h hc
  rcases hnumeral.mem hc with rfl | hdigit
  · revert hlower
    decide
  · simp [isLower_toLower_of_isDigit hdigit] at hlower

theorem Field.find_name {f : Field} {name : List Char} {n : List Char × ℕ} :
    (f.names.find? fun n => n.1 = name) = some n ↔ n ∈ f.names ∧ n.1 = name := by
  constructor
  · intro h
    exact ⟨List.mem_of_find?_eq_some h, by simpa using List.find?_some h⟩
  · rintro ⟨hmem, hname⟩
    have hsome : (f.names.find? fun n => n.1 = name).isSome := by
      rw [List.find?_isSome]
      exact ⟨n, hmem, by simpa using hname⟩
    obtain ⟨m, hm⟩ := Option.isSome_iff_exists.mp hsome
    have hsame : m.1 = n.1 := by
      rw [hname]
      simpa using List.find?_some hm
    rw [hm, List.inj_on_of_nodup_map f.distinct (List.mem_of_find?_eq_some hm) hmem hsame]

theorem valueOf_eq_ok {tok : List Char} {v : ℕ} :
    valueOf f tok = .ok v ↔ (Numeral tok v ∧ v ≤ 255) ∨ (tok.map Char.toLower, v) ∈ f.names := by
  unfold valueOf
  cases hnumber : parseU8 tok with
  | some n =>
    have hnumeral := parseU8_eq_some.mp hnumber
    constructor
    · intro h
      cases h
      exact .inl hnumeral
    · rintro (⟨h, -⟩ | h)
      · rw [hnumeral.1.unique h]
      · exact (Field.not_numeral_of_name h hnumeral.1).elim
  | none =>
    have hnot : ¬ (Numeral tok v ∧ v ≤ 255) := by
      intro h
      rw [parseU8_eq_some.mpr h] at hnumber
      cases hnumber
    cases hname : f.names.find? fun n => n.1 = tok.map Char.toLower with
    | some n =>
      obtain ⟨hmem, heq⟩ := Field.find_name.mp hname
      constructor
      · intro h
        cases h
        exact .inr (heq ▸ hmem)
      · rintro (h | h)
        · exact (hnot h).elim
        · rw [Field.find_name.mpr ⟨h, rfl⟩] at hname
          cases hname
          rfl
    | none =>
      constructor
      · intro h
        cases h
      · rintro (h | h)
        · exact (hnot h).elim
        · rw [Field.find_name.mpr ⟨h, rfl⟩] at hname
          cases hname

theorem resolve_eq_ok {tok : List Char} {v : ℕ} : resolve f tok = .ok v ↔ Atom f tok v := by
  unfold resolve
  rw [bind_eq_ok]
  constructor
  · rintro ⟨n, hvalue, h⟩
    split at h
    · cases h
    · next hin =>
        cases h
        rcases valueOf_eq_ok.mp hvalue with ⟨hnumeral, -⟩ | hname
        · exact .number hnumeral (by omega) (by omega)
        · exact .name hname (by omega) (by omega)
  · intro h
    have hnarrow := f.narrow
    cases h with
    | number h hmin hmax => exact ⟨v, valueOf_eq_ok.mpr (.inl ⟨h, by omega⟩), if_neg (by omega)⟩
    | name h hmin hmax => exact ⟨v, valueOf_eq_ok.mpr (.inr h), if_neg (by omega)⟩

theorem Atom.plain {tok : List Char} {v : ℕ} (h : Atom f tok v) {c : Char} (hc : c ∈ [',', '/', '-', '*']) : c ∉ tok := by
  intro hmem
  have hseparator : isWhitespace c = false ∧ c ≠ '+' ∧ c.isDigit = false ∧ c.toLower.isLower = false := by
    simp only [List.mem_cons, List.not_mem_nil, or_false] at hc
    rcases hc with rfl | rfl | rfl | rfl <;> decide
  obtain ⟨hspace, hplus, hdigit, hlower⟩ := hseparator
  rcases mem_trim_or hmem with hmem | hwhite
  · cases h with
    | number h hmin hmax =>
      rcases h.mem hmem with hc | hc
      · exact hplus hc
      · simp [hdigit] at hc
    | name h hmin hmax =>
      have := Field.lower_of_name h hmem
      simp [hlower] at this
  · simp [hspace] at hwhite

theorem Atom.bounds {tok : List Char} {v : ℕ} (h : Atom f tok v) : f.min ≤ v ∧ v ≤ f.max := by
  cases h with
  | number h hmin hmax => exact ⟨hmin, hmax⟩
  | name h hmin hmax => exact ⟨hmin, hmax⟩

theorem Atom.ne_star {tok : List Char} {v : ℕ} (h : Atom f tok v) : tok ≠ ['*'] := by
  rintro rfl
  exact h.plain (c := '*') (by simp) (by simp)

/-! ## Items -/

theorem Numeral.plain_of {s : List Char} {v : ℕ} (h : Numeral s v) {c : Char} (hc : c ∈ [',', '/', '-', '*']) : c ∉ s := by
  intro hmem
  have hseparator : c ≠ '+' ∧ c.isDigit = false := by
    simp only [List.mem_cons, List.not_mem_nil, or_false] at hc
    rcases hc with rfl | rfl | rfl | rfl <;> decide
  rcases h.mem hmem with hplus | hdigit
  · exact hseparator.1 hplus
  · simp [hseparator.2] at hdigit

theorem stepOf_eq_ok {spec part range : List Char} {step : ℕ} : stepOf spec part = .ok (range, step) ↔
    ('/' ∉ part ∧ range = part ∧ step = 1) ∨ ∃ s, part = range ++ '/' :: s ∧ '/' ∉ range ∧ Step s step := by
  unfold stepOf
  cases hsplit : splitOnce '/' part with
  | none =>
    have hnot := splitOnce_eq_none.mp hsplit
    constructor
    · intro h
      cases h
      exact .inl ⟨hnot, rfl, rfl⟩
    · rintro (⟨-, rfl, rfl⟩ | ⟨s, rfl, -, -⟩)
      · rfl
      · simp at hnot
  | some halves =>
    obtain ⟨before, s⟩ := halves
    obtain ⟨rfl, hbefore⟩ := splitOnce_eq_some.mp hsplit
    simp only
    constructor
    · intro h
      split at h
      · cases h
      · next step' hnumber =>
          obtain ⟨hnumeral, hbyte⟩ := parseU8_eq_some.mp hnumber
          split at h
          · cases h
          · next hzero =>
              cases h
              exact .inr ⟨s, rfl, hbefore, hnumeral, by omega, hbyte⟩
    · rintro (⟨hnot, -, -⟩ | ⟨s', heq, hrange, hstep⟩)
      · simp at hnot
      · have hsame := splitOnce_eq_some.mpr ⟨heq, hrange⟩
        rw [hsplit] at hsame
        cases hsame
        rw [parseU8_eq_some.mpr ⟨hstep.numeral, hstep.byte⟩]
        exact if_neg (by have := hstep.positive; omega)

theorem boundsOf_eq_ok {part range : List Char} {lo hi : ℕ} : boundsOf f part range = .ok (lo, hi) ↔
    (range = ['*'] ∧ lo = f.min ∧ hi = f.max) ∨
    (∃ a b, range = a ++ '-' :: b ∧ Atom f a lo ∧ Atom f b hi) ∨
    (Atom f range lo ∧ hi = if '/' ∈ part then f.max else lo) := by
  unfold boundsOf
  split
  · next hstar =>
      subst hstar
      constructor
      · intro h
        cases h
        exact .inl ⟨rfl, rfl, rfl⟩
      · rintro (⟨-, rfl, rfl⟩ | ⟨a, b, heq, -⟩ | ⟨h, -⟩)
        · rfl
        · have hmem : '-' ∈ ['*'] := by
            rw [heq]
            simp
          simp at hmem
        · exact (h.ne_star rfl).elim
  · next hstar =>
      cases hsplit : splitOnce '-' range with
      | some halves =>
        obtain ⟨a, b⟩ := halves
        obtain ⟨rfl, ha⟩ := splitOnce_eq_some.mp hsplit
        simp only [bind_eq_ok, resolve_eq_ok]
        constructor
        · rintro ⟨lo', hlo, hi', hhi, h⟩
          cases h
          exact .inr (.inl ⟨a, b, rfl, hlo, hhi⟩)
        · rintro (⟨h, -⟩ | ⟨a', b', heq, hlo, hhi⟩ | ⟨h, -⟩)
          · exact (hstar h).elim
          · have hsame := splitOnce_eq_some.mpr ⟨heq, hlo.plain (c := '-') (by simp)⟩
            rw [hsplit] at hsame
            cases hsame
            exact ⟨lo, hlo, hi, hhi, rfl⟩
          · exact (h.plain (c := '-') (by simp) (by simp)).elim
      | none =>
        have hdash := splitOnce_eq_none.mp hsplit
        simp only [bind_eq_ok, resolve_eq_ok]
        constructor
        · rintro ⟨v, hv, h⟩
          refine .inr (.inr ?_)
          split at h <;> cases h
          · next hslash => exact ⟨hv, by rw [if_pos hslash]⟩
          · next hslash => exact ⟨hv, by rw [if_neg hslash]⟩
        · rintro (⟨h, -⟩ | ⟨a, b, rfl, -⟩ | ⟨h, rfl⟩)
          · exact (hstar h).elim
          · simp at hdash
          · refine ⟨lo, h, ?_⟩
            split <;> rfl

theorem spelled_of_parts {spec part range : List Char} {lo hi step : ℕ} (hstep : stepOf spec part = .ok (range, step))
    (hbounds : boundsOf f part range = .ok (lo, hi)) (h : lo ≤ hi) : Spelled f part ⟨lo, hi, step⟩ := by
  rcases stepOf_eq_ok.mp hstep with ⟨hslash, rfl, rfl⟩ | ⟨s, rfl, hslash, hs⟩
  · rcases boundsOf_eq_ok.mp hbounds with ⟨rfl, rfl, rfl⟩ | ⟨a, b, rfl, ha, hb⟩ | ⟨ha, hhi⟩
    · exact .star
    · exact .range ha hb h
    · rw [if_neg hslash] at hhi
      subst hhi
      exact .value ha
  · rcases boundsOf_eq_ok.mp hbounds with ⟨rfl, rfl, rfl⟩ | ⟨a, b, rfl, ha, hb⟩ | ⟨ha, hhi⟩
    · exact .starStep hs
    · exact .rangeStep ha hb h hs
    · rw [if_pos (by simp)] at hhi
      subst hhi
      exact .valueStep ha hs

theorem parts_of_spelled {part : List Char} {i : Item} (h : Spelled f part i) (spec : List Char) :
    ∃ range, stepOf spec part = .ok (range, i.step) ∧ boundsOf f part range = .ok (i.lo, i.hi) ∧ i.lo ≤ i.hi := by
  cases h with
  | star => exact ⟨['*'], rfl, rfl, f.ordered⟩
  | value h =>
    have hslash : '/' ∉ part := h.plain (by simp)
    refine ⟨part, stepOf_eq_ok.mpr (.inl ⟨hslash, rfl, rfl⟩), boundsOf_eq_ok.mpr (.inr (.inr ⟨h, ?_⟩)), le_refl _⟩
    rw [if_neg hslash]
  | @range a b lo hi ha hb hle =>
    have hslash : '/' ∉ a ++ '-' :: b := by
      simp [ha.plain (c := '/') (by simp), hb.plain (c := '/') (by simp)]
    exact ⟨_, stepOf_eq_ok.mpr (.inl ⟨hslash, rfl, rfl⟩), boundsOf_eq_ok.mpr (.inr (.inl ⟨a, b, rfl, ha, hb⟩)), hle⟩
  | @starStep s step hs =>
    exact ⟨['*'], stepOf_eq_ok.mpr (.inr ⟨s, rfl, by simp, hs⟩), boundsOf_eq_ok.mpr (.inl ⟨rfl, rfl, rfl⟩), f.ordered⟩
  | @valueStep a s v step h hs =>
    have hslash : '/' ∉ a := h.plain (by simp)
    refine ⟨a, stepOf_eq_ok.mpr (.inr ⟨s, rfl, hslash, hs⟩), boundsOf_eq_ok.mpr (.inr (.inr ⟨h, ?_⟩)), h.bounds.2⟩
    rw [if_pos (by simp)]
  | @rangeStep a b s lo hi step ha hb hle hs =>
    have hslash : '/' ∉ a ++ '-' :: b := by
      simp [ha.plain (c := '/') (by simp), hb.plain (c := '/') (by simp)]
    exact ⟨_, stepOf_eq_ok.mpr (.inr ⟨s, rfl, hslash, hs⟩), boundsOf_eq_ok.mpr (.inr (.inl ⟨a, b, rfl, ha, hb⟩)), hle⟩

def Item.set (mask : BitVec 64) (i : Item) : BitVec 64 := marks i.hi i.step (i.hi - i.lo + 1) i.lo mask

theorem parsePart_eq_ok {spec part : List Char} {mask mask' : BitVec 64} :
    parsePart f spec mask part = .ok mask' ↔ ∃ i, Spelled f part i ∧ i.set mask = mask' := by
  unfold parsePart
  rw [bind_eq_ok]
  constructor
  · rintro ⟨⟨range, step⟩, hstep, h⟩
    obtain ⟨⟨lo, hi⟩, hbounds, h⟩ := bind_eq_ok.mp h
    simp only at h
    split at h
    · cases h
    · next hle =>
        cases h
        exact ⟨⟨lo, hi, step⟩, spelled_of_parts hstep hbounds (by omega), rfl⟩
  · rintro ⟨i, hi, rfl⟩
    obtain ⟨range, hstep, hbounds, hle⟩ := parts_of_spelled hi spec
    exact ⟨_, hstep, bind_eq_ok.mpr ⟨_, hbounds, if_neg (by simpa using hle)⟩⟩

/-! ## Masks -/

theorem Spelled.bounds {part : List Char} {i : Item} (h : Spelled f part i) :
    f.min ≤ i.lo ∧ i.lo ≤ i.hi ∧ i.hi ≤ f.max ∧ 0 < i.step := by
  have hordered := f.ordered
  cases h with
  | star => exact ⟨le_refl _, hordered, le_refl _, by simp⟩
  | value h => exact ⟨h.bounds.1, le_refl _, h.bounds.2, by simp⟩
  | range ha hb hle => exact ⟨ha.bounds.1, hle, hb.bounds.2, by simp⟩
  | starStep hs => exact ⟨le_refl _, hordered, le_refl _, hs.positive⟩
  | valueStep h hs => exact ⟨h.bounds.1, h.bounds.2, le_refl _, hs.positive⟩
  | rangeStep ha hb hle hs => exact ⟨ha.bounds.1, hle, hb.bounds.2, hs.positive⟩

theorem getLsbD_or_bit {mask : BitVec 64} {v w : ℕ} (hv : v < 64) :
    (mask ||| 1#64 <<< v).getLsbD w = true ↔ mask.getLsbD w = true ∨ w = v := by
  rw [BitVec.getLsbD_or, Bool.or_eq_true, BitVec.getLsbD_shiftLeft]
  apply or_congr_right
  simp only [BitVec.getLsbD_one, Bool.and_eq_true, decide_eq_true_eq, Bool.not_eq_true', decide_eq_false_iff_not]
  omega

/-- A pass sets the bit it stands at, and the rest those further on. -/
theorem getLsbD_marks {hi step : ℕ} (hhi : hi < 64) (hstep : 0 < step) {passes v w : ℕ} {mask : BitVec 64}
    (hv : v ≤ hi) (hpasses : hi - v < passes) :
    (marks hi step passes v mask).getLsbD w = true ↔
      mask.getLsbD w = true ∨ ∃ k, w = v + k * step ∧ w ≤ hi := by
  induction passes generalizing v mask with
  | zero => omega
  | succ passes ih =>
    unfold marks
    simp only
    split
    · next hnext =>
        rw [ih hnext.2 (by omega), getLsbD_or_bit (by omega), or_assoc]
        apply or_congr_right
        constructor
        · rintro (rfl | ⟨k, rfl, hle⟩)
          · exact ⟨0, by simp, hv⟩
          · exact ⟨k + 1, by rw [Nat.succ_mul]; omega, hle⟩
        · rintro ⟨k, rfl, hle⟩
          cases k with
          | zero => exact .inl (by simp)
          | succ k =>
            rw [Nat.succ_mul] at hle ⊢
            exact .inr ⟨k, by omega, hle⟩
    · next hlast =>
        rw [getLsbD_or_bit (by omega)]
        apply or_congr_right
        constructor
        · rintro rfl
          exact ⟨0, by simp, hv⟩
        · rintro ⟨k, rfl, hle⟩
          cases k with
          | zero => simp
          | succ k =>
            rw [Nat.succ_mul] at hle
            omega

theorem Spelled.getLsbD_set {part : List Char} {i : Item} (h : Spelled f part i) {mask : BitVec 64} {w : ℕ} :
    (i.set mask).getLsbD w = true ↔ mask.getLsbD w = true ∨ i.Denotes w := by
  obtain ⟨-, hle, hmax, hstep⟩ := h.bounds
  have hnarrow := f.narrow
  exact getLsbD_marks (by omega) hstep hle (by omega)

/-- The fold over the parts sets what the items denote. -/
theorem foldlM_parsePart_eq_ok {spec : List Char} {parts : List (List Char)} {mask mask' : BitVec 64} :
    parts.foldlM (parsePart f spec) mask = .ok mask' ↔ ∃ items, List.Forall₂ (Spelled f) parts items ∧
      ∀ w, mask'.getLsbD w = true ↔ mask.getLsbD w = true ∨ ∃ i ∈ items, i.Denotes w := by
  induction parts generalizing mask with
  | nil =>
    constructor
    · intro h
      cases h
      exact ⟨[], .nil, by simp⟩
    · rintro ⟨items, hitems, hbits⟩
      cases hitems
      rw [show mask = mask' by
        apply BitVec.eq_of_getLsbD_eq
        intro w hw
        rw [Bool.eq_iff_iff, hbits]
        simp]
      rfl
  | cons part parts ih =>
    rw [Fallible.foldlM_cons_eq_ok]
    constructor
    · rintro ⟨middle, hpart, hrest⟩
      obtain ⟨i, hi, rfl⟩ := parsePart_eq_ok.mp hpart
      obtain ⟨items, hitems, hbits⟩ := ih.mp hrest
      refine ⟨i :: items, .cons hi hitems, fun w => ?_⟩
      rw [hbits, hi.getLsbD_set, or_assoc]
      simp
    · rintro ⟨items, hitems, hbits⟩
      cases hitems with
      | @cons _ i _ items hi hitems =>
        refine ⟨i.set mask, parsePart_eq_ok.mpr ⟨i, hi, rfl⟩, ih.mpr ⟨items, hitems, fun w => ?_⟩⟩
        rw [hbits, hi.getLsbD_set, or_assoc]
        simp

/-! ## Whole fields -/

theorem Spelled.comma {part : List Char} {i : Item} (h : Spelled f part i) : ',' ∉ part := by
  cases h with
  | star => simp
  | value h => exact h.plain (by simp)
  | range ha hb hle => simp [ha.plain (c := ',') (by simp), hb.plain (c := ',') (by simp)]
  | starStep hs => simp [hs.numeral.plain_of (c := ',') (by simp)]
  | valueStep h hs => simp [h.plain (c := ',') (by simp), hs.numeral.plain_of (c := ',') (by simp)]
  | rangeStep ha hb hle hs =>
    simp [ha.plain (c := ',') (by simp), hb.plain (c := ',') (by simp), hs.numeral.plain_of (c := ',') (by simp)]

theorem Atom.ne_nil {tok : List Char} {v : ℕ} (h : Atom f tok v) : tok ≠ [] := by
  rintro rfl
  cases h with
  | number h hmin hmax => exact h.ne_nil rfl
  | name h hmin hmax => exact (f.alphabetic _ h).1 rfl

theorem Spelled.ne_nil {part : List Char} {i : Item} (h : Spelled f part i) : part ≠ [] := by
  cases h with
  | value h => exact h.ne_nil
  | _ => simp

theorem Listed.ne_nil {spec : List Char} {items : List Item} (h : Listed f spec items) : trim spec ≠ [] := by
  obtain ⟨texts, hne, htrim, hitems⟩ := h
  rw [htrim]
  cases hitems with
  | nil => exact (hne rfl).elim
  | @cons text _ texts _ hi hitems =>
    cases texts with
    | nil =>
      rw [List.intercalate_singleton]
      exact hi.ne_nil
    | cons next texts => simp

/-- Parsed exactly where it is in the grammar, and as the values it denotes. -/
theorem parseField_eq_ok {spec : List Char} {mask : BitVec 64} : parseField f spec = .ok mask ↔
    ∃ items, Listed f spec items ∧ ∀ v, mask.getLsbD v = true ↔ ∃ i ∈ items, i.Denotes v := by
  simp only [parseField]
  split
  · next hempty =>
      constructor
      · intro h
        cases h
      · rintro ⟨items, hitems, -⟩
        exact (hitems.ne_nil hempty).elim
  · rw [foldlM_parsePart_eq_ok]
    constructor
    · rintro ⟨items, hitems, hbits⟩
      refine ⟨items, ⟨(trim spec).splitOn ',', List.splitOn_ne_nil _ _, (List.intercalate_splitOn _).symm, hitems⟩, ?_⟩
      simpa using hbits
    · rintro ⟨items, ⟨texts, hne, htrim, hitems⟩, hbits⟩
      have hcomma : ∀ text ∈ texts, ',' ∉ text := by
        intro text htext
        obtain ⟨k, hk⟩ := List.getElem?_of_mem htext
        obtain ⟨i, -, hi⟩ := Fallible.forall₂_getElem? hitems hk
        exact hi.comma
      refine ⟨items, ?_, by simpa using hbits⟩
      rw [htrim, List.splitOn_intercalate ',' hcomma hne]
      exact hitems

theorem Listed.parsed {spec : List Char} {items : List Item} (h : Listed f spec items) :
    ∃ mask, parseField f spec = .ok mask ∧ ∀ v, mask.getLsbD v = true ↔ ∃ i ∈ items, i.Denotes v := by
  have hmask {texts : List (List Char)} {items : List Item} (hitems : List.Forall₂ (Spelled f) texts items) :
      ∃ mask : BitVec 64, ∀ v, mask.getLsbD v = true ↔ ∃ i ∈ items, i.Denotes v := by
    induction hitems with
    | nil => exact ⟨0, by simp⟩
    | @cons _ i _ items hi _ ih =>
      obtain ⟨mask, hbits⟩ := ih
      refine ⟨i.set mask, fun v => ?_⟩
      rw [hi.getLsbD_set, hbits, or_comm]
      simp
  obtain ⟨texts, hne, htrim, hitems⟩ := h
  obtain ⟨mask, hbits⟩ := hmask hitems
  exact ⟨mask, parseField_eq_ok.mpr ⟨items, ⟨texts, hne, htrim, hitems⟩, hbits⟩, hbits⟩

theorem Listed.denotes_le {spec : List Char} {items : List Item} (h : Listed f spec items) {i : Item} (hi : i ∈ items)
    {v : ℕ} (hv : i.Denotes v) : f.min ≤ v ∧ v ≤ f.max := by
  obtain ⟨texts, -, -, hitems⟩ := h
  obtain ⟨k, hk⟩ := List.getElem?_of_mem hi
  obtain ⟨text, -, hspelled⟩ := Fallible.forall₂_getElem? hitems.flip hk
  obtain ⟨hmin, -, hmax, -⟩ := Spelled.bounds hspelled
  obtain ⟨n, rfl, hle⟩ := hv
  exact ⟨by omega, by omega⟩

end Ral.Schedule
