import Mathlib.Data.List.MinMax
import Ral.Pipeline.Stage

/-! # The verdict of a pipeline

The collector folds how its stages settled, in launch order, keeping the strongest
break, the first panic and the last value. Against the fold stands the verdict the
settlements call for.
-/

namespace Ral.Pipeline

open Ral.Eval Ral.Process

/-- Where the first greatest element stands. -/
theorem split_argmax {α : Type} {f : α → ℕ} {l : List α} {a : α} (h : a ∈ l.argmax f) :
    ∃ s t, l = s ++ a :: t ∧ (∀ b ∈ s, f b < f a) ∧ ∀ b ∈ t, f b ≤ f a := by
  induction l using List.reverseRecOn generalizing a with
  | nil => simp at h
  | append_singleton l x ih =>
    rw [List.argmax_concat] at h
    cases found : l.argmax f with
    | none =>
      simp only [found, Option.mem_def, Option.some.injEq] at h
      subst h
      refine ⟨[], [], ?_, by simp, by simp⟩
      rw [List.argmax_eq_none.mp found]
    | some c =>
      obtain ⟨s, t, split, below, atMost⟩ := ih found
      simp only [found] at h
      split at h
      · next less =>
          cases h
          refine ⟨l, [], by simp, ?_, by simp⟩
          intro b mem
          rw [split, List.mem_append, List.mem_cons] at mem
          rcases mem with mem | rfl | mem
          · have := below b mem
            omega
          · exact less
          · have := atMost b mem
            omega
      · next kept =>
          cases h
          refine ⟨s, t ++ [x], by simp [split], below, ?_⟩
          intro b mem
          rcases List.mem_append.mp mem with mem | mem
          · exact atMost b mem
          · rw [List.mem_singleton.mp mem]
            omega

/-- An owned reader-gone stop is some collector's above to consume; the closed-stdout
stop is a stop like any other. -/
def rank : Break → ℕ
  | .error _ => 1
  | .escape (.exit _) => 2
  | .escape (.stopped cause owner _) =>
    if cause = .readerGone ∧ owner.isSome then 0 else 3 + cause.asU8

/-- Ties go to the earlier stage. -/
def stronger (held new : Break) : Break := if rank new > rank held then new else held

/-! ## The fold -/

/-- What the fold has gathered. -/
structure Tally where
  verdict : Option Break
  panic : Option String
  last : Value

namespace Tally

def empty : Tally := ⟨none, none, .unit⟩

/-- One settlement. -/
def take (t : Tally) (ending : End) : Tally :=
  match ending.intoSettled with
  | .error text => { t with panic := some (t.panic.getD text) }
  | .ok (.error br) =>
    { t with verdict := some (match t.verdict with
        | some held => stronger held br
        | none => br) }
  | .ok (.ok v) => { t with last := v }

def ownerOf (cause : CancelCause) (inForce : Option (CancelCause × ℕ)) : Option ℕ :=
  (inForce.filter fun c => c.1 = cause).map Prod.snd

/-- The verdict, or the text of a panic that goes on; `inForce` is what the scope shows
at the end. -/
def conclude (t : Tally) (teardown : Option CancelCause) (inForce : Option (CancelCause × ℕ)) :
    Except String (Settled Value) :=
  match t.panic with
  | some text => .error text
  | none =>
    let verdict := match teardown with
      | some cause => some (t.verdict.getD (.escape (.stopped cause (ownerOf cause inForce) none)))
      | none => t.verdict
    match verdict with
    | some br => .ok (.error br)
    | none => .ok (.ok t.last)

end Tally

/-! ## What the settlements call for -/

def panicOf (ending : End) : Option String :=
  match ending.intoSettled with
  | .error text => some text
  | .ok _ => none

def breakOf (ending : End) : Option Break :=
  match ending.intoSettled with
  | .ok (.error br) => some br
  | _ => none

def valueOf (ending : End) : Option Value :=
  match ending.intoSettled with
  | .ok (.ok v) => some v
  | _ => none

def Strongest (breaks : List Break) (br : Break) : Prop :=
  ∃ earlier later, breaks = earlier ++ br :: later ∧
    (∀ b ∈ earlier, rank b < rank br) ∧ ∀ b ∈ later, rank b ≤ rank br

/-- The outcome the settlements `ends` call for. -/
inductive Verdict (ends : List End) (teardown : Option CancelCause) (inForce : Option (CancelCause × ℕ)) :
    Except String (Settled Value) → Prop
  /-- A stage's panic goes on in place of a verdict. -/
  | panicked (text : String) (rest : List String) (first : ends.filterMap panicOf = text :: rest) :
      Verdict ends teardown inForce (.error text)
  | broke (br : Break) (calm : ends.filterMap panicOf = []) (strongest : Strongest (ends.filterMap breakOf) br) :
      Verdict ends teardown inForce (.ok (.error br))
  | tornDown (cause : CancelCause) (calm : ends.filterMap panicOf = [])
      (unbroken : ends.filterMap breakOf = []) (under : teardown = some cause) :
      Verdict ends teardown inForce
        (.ok (.error (.escape (.stopped cause (Tally.ownerOf cause inForce) none))))
  | value (calm : ends.filterMap panicOf = []) (unbroken : ends.filterMap breakOf = [])
      (under : teardown = none) :
      Verdict ends teardown inForce (.ok (.ok ((ends.getLast?.bind valueOf).getD .unit)))

theorem Strongest.unique {breaks : List Break} {b c : Break} (hb : Strongest breaks b)
    (hc : Strongest breaks c) : b = c := by
  obtain ⟨s, t, split, below, atMost⟩ := hb
  obtain ⟨s', t', split', below', atMost'⟩ := hc
  rw [split] at split'
  rcases List.append_eq_append_iff.mp split' with ⟨mid, hs', hb⟩ | ⟨mid, hs, hc⟩
  · cases mid with
    | nil =>
      simp only [List.nil_append, List.cons.injEq] at hb
      exact hb.1
    | cons x mid =>
      simp only [List.cons_append, List.cons.injEq] at hb
      obtain ⟨rfl, ht⟩ := hb
      have up := below' b (by simp [hs'])
      have down := atMost c (by simp [ht])
      omega
  · cases mid with
    | nil =>
      simp only [List.nil_append, List.cons.injEq] at hc
      exact hc.1.symm
    | cons x mid =>
      simp only [List.cons_append, List.cons.injEq] at hc
      obtain ⟨rfl, ht⟩ := hc
      have up := below c (by simp [hs])
      have down := atMost' b (by simp [ht])
      omega

theorem Verdict.unique {ends : List End} {teardown : Option CancelCause} {inForce : Option (CancelCause × ℕ)}
    {r r' : Except String (Settled Value)} (h : Verdict ends teardown inForce r)
    (h' : Verdict ends teardown inForce r') : r' = r := by
  have some_break : ∀ br, ¬ Strongest [] br := by
    rintro br ⟨s, t, split, -⟩
    simp at split
  cases h with
  | panicked text rest first =>
    cases h' with
    | panicked text' rest' first' =>
      rw [first] at first'
      cases first'
      rfl
    | broke br calm => simp [first] at calm
    | tornDown cause calm => simp [first] at calm
    | value calm => simp [first] at calm
  | broke br calm strongest =>
    cases h' with
    | panicked text' rest' first' => simp [calm] at first'
    | broke br' calm' strongest' => rw [strongest'.unique strongest]
    | tornDown cause calm' unbroken => exact absurd (unbroken ▸ strongest) (some_break br)
    | value calm' unbroken => exact absurd (unbroken ▸ strongest) (some_break br)
  | tornDown cause calm unbroken under =>
    cases h' with
    | panicked text' rest' first' => simp [calm] at first'
    | broke br' calm' strongest' => exact absurd (unbroken ▸ strongest') (some_break br')
    | tornDown cause' calm' unbroken' under' =>
      rw [under] at under'
      cases under'
      rfl
    | value calm' unbroken' under' => simp [under] at under'
  | value calm unbroken under =>
    cases h' with
    | panicked text' rest' first' => simp [calm] at first'
    | broke br' calm' strongest' => exact absurd (unbroken ▸ strongest') (some_break br')
    | tornDown cause' calm' unbroken' under' => simp [under] at under'
    | value calm' unbroken' under' => rfl

/-! ## The fold finds it -/

/-- A tally of the settlements so far. -/
structure Tally.Counts (t : Tally) (ends : List End) : Prop where
  panic : t.panic = (ends.filterMap panicOf).head?
  verdict : t.verdict = (ends.filterMap breakOf).argmax rank
  last : t.last = (ends.filterMap valueOf).getLast?.getD .unit

theorem Tally.counts_empty : empty.Counts [] := ⟨rfl, rfl, rfl⟩

theorem Tally.Counts.take {t : Tally} {ends : List End} (h : t.Counts ends) (ending : End) :
    (t.take ending).Counts (ends ++ [ending]) := by
  unfold Tally.take
  cases settled : ending.intoSettled with
  | error text =>
    refine ⟨?_, ?_, ?_⟩
    · simp only [h.panic, List.filterMap_append, List.head?_append]
      cases (ends.filterMap panicOf).head? <;> simp [panicOf, settled]
    · simp [h.verdict, breakOf, settled, List.filterMap_append]
    · simp [h.last, valueOf, settled, List.filterMap_append]
  | ok r =>
    cases r with
    | error br =>
      refine ⟨?_, ?_, ?_⟩
      · simp [h.panic, panicOf, settled, List.filterMap_append]
      · have one : [ending].filterMap breakOf = [br] := by simp [breakOf, settled]
        simp only [List.filterMap_append, one, List.argmax_concat, h.verdict]
        cases (ends.filterMap breakOf).argmax rank with
        | none => rfl
        | some held =>
          simp only [stronger]
          split <;> rfl
      · simp [h.last, valueOf, settled, List.filterMap_append]
    | ok v =>
      refine ⟨?_, ?_, ?_⟩
      · simp [h.panic, panicOf, settled, List.filterMap_append]
      · simp [h.verdict, breakOf, settled, List.filterMap_append]
      · simp [valueOf, settled, List.filterMap_append]

theorem last_value {ends : List End} (calm : ends.filterMap panicOf = [])
    (unbroken : ends.filterMap breakOf = []) :
    (ends.filterMap valueOf).getLast? = ends.getLast?.bind valueOf := by
  cases ends using List.reverseRecOn with
  | nil => rfl
  | append_singleton ends ending =>
    simp only [List.filterMap_append, List.append_eq_nil_iff] at calm unbroken
    have value : ∃ v, valueOf ending = some v := by
      have noPanic := calm.2
      have noBreak := unbroken.2
      simp only [List.filterMap_cons, List.filterMap_nil, panicOf, breakOf] at noPanic noBreak
      unfold valueOf
      cases settled : ending.intoSettled with
      | error text => simp [settled] at noPanic
      | ok r =>
        cases r with
        | error br => simp [settled] at noBreak
        | ok v => exact ⟨v, rfl⟩
    obtain ⟨v, hv⟩ := value
    simp [List.filterMap_append, hv]

/-- The fold of the settlements is the verdict they call for. -/
theorem Tally.Counts.verdict_conclude {t : Tally} {ends : List End} (h : t.Counts ends)
    (teardown : Option CancelCause) (inForce : Option (CancelCause × ℕ)) :
    Verdict ends teardown inForce (t.conclude teardown inForce) := by
  unfold Tally.conclude
  cases panics : ends.filterMap panicOf with
  | cons text rest =>
    rw [h.panic, panics]
    exact .panicked text rest panics
  | nil =>
    rw [h.panic, panics]
    cases strongest : (ends.filterMap breakOf).argmax rank with
    | some br =>
      have verdict : t.verdict = some br := h.verdict.trans strongest
      cases teardown with
      | none => simpa [verdict] using .broke br panics (split_argmax strongest)
      | some cause => simpa [verdict] using .broke br panics (split_argmax strongest)
    | none =>
      have verdict : t.verdict = none := h.verdict.trans strongest
      have unbroken := List.argmax_eq_none.mp strongest
      cases teardown with
      | some cause =>
        simpa [verdict] using .tornDown cause panics unbroken rfl
      | none =>
        have last := h.last
        rw [last_value panics unbroken] at last
        simpa [verdict, last] using .value panics unbroken rfl

end Ral.Pipeline
