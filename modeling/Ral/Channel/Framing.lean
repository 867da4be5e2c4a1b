import Mathlib.Data.List.Forall2
import Mathlib.Logic.Relation
import Ral.Channel.Receive

/-! # Writers sharing a channel

A frame is encoded before the lock is taken and written under it. A write that fails
is recorded and the channel shut down before the lock is released; a panic in between
leaves the lock poisoned, and no later writer gets it. A line may also be severed
from outside the lock, at any moment.
-/

namespace Ral.Channel

section

/-- Where the holder of the lock stands. -/
inductive Hand
  | putting (left : List UInt8)
  | failed
  | recorded

structure Wire (T : Type) where
  peer : List UInt8
  shut : Bool
  holder : Option Hand
  poisoned : Bool
  severed : Bool
  begun : List T
  torn : Bool

variable {T : Type}

def Wire.opened : Wire T := ⟨[], false, none, false, false, [], false⟩

/-- No writer holds the lock and none is kept out of it. -/
structure Wire.Idle (w : Wire T) : Prop where
  free : w.holder = none
  whole : w.shut = false
  clean : w.poisoned = false

variable (codec : Codec T)

/-- One step of one thread. -/
inductive Step : Wire T → Wire T → Prop
  | unencodable (w : Wire T) (v : T) (e : IoError) : encode codec v = .error e → Step w w
  | lock (w : Wire T) (v : T) (e : Encoded) : encode codec v = .ok e → w.holder = none →
      w.poisoned = false →
      Step w { w with holder := some (.putting e.wire), begun := w.begun ++ [v] }
  | write (w : Wire T) (front left : List UInt8) : w.holder = some (.putting (front ++ left)) →
      w.shut = false → front ≠ [] →
      Step w { w with peer := w.peer ++ front, holder := some (.putting left) }
  | interrupted (w : Wire T) (left : List UInt8) : w.holder = some (.putting left) → Step w w
  /-- A write of nothing, a failed one, or a failed flush. -/
  | fail (w : Wire T) (left : List UInt8) : w.holder = some (.putting left) →
      Step w { w with holder := some .failed, torn := true }
  | flush (w : Wire T) : w.holder = some (.putting []) → Step w { w with holder := none }
  | record (w : Wire T) : w.holder = some .failed →
      Step w { w with holder := some .recorded, severed := true }
  | shutdown (w : Wire T) : w.holder = some .recorded → Step w { w with holder := none, shut := true }
  | panic (w : Wire T) (h : Hand) : w.holder = some h →
      Step w { w with holder := none, poisoned := true }
  | sever (w : Wire T) : Step w { w with shut := true }

abbrev Runs : Wire T → Wire T → Prop := Relation.ReflTransGen (Step codec)

/-! ## What a failed write leaves -/

/-- A poisoned lock is never held, and after a failed write it is held by the failed
writer, poisoned, or free over a shut channel. -/
structure Sealed (w : Wire T) : Prop where
  poisoned : w.poisoned = true → w.holder = none
  torn : w.torn = true →
    w.shut = true ∨ w.poisoned = true ∨ w.holder = some .failed ∨ w.holder = some .recorded

theorem sealed_opened : Sealed (Wire.opened : Wire T) :=
  ⟨fun h => absurd h (by simp [Wire.opened]), fun h => absurd h (by simp [Wire.opened])⟩

variable {codec} {w w' : Wire T}

theorem Sealed.putting (h : Sealed w) {left : List UInt8} (held : w.holder = some (.putting left)) :
    w.poisoned = false ∧ (w.torn = true → w.shut = true) := by
  have clean : w.poisoned = false := by
    by_contra bad
    have := h.poisoned (by simpa using bad)
    simp [held] at this
  refine ⟨clean, fun t => ?_⟩
  rcases h.torn t with shut | poisoned | failed | recorded
  · exact shut
  · simp [clean] at poisoned
  · simp [held] at failed
  · simp [held] at recorded

theorem Sealed.step (h : Sealed w) (step : Step codec w w') : Sealed w' := by
  cases step with
  | unencodable v e bad => exact h
  | lock v e enc free clean =>
    refine ⟨fun p => absurd p (by simp [clean]), fun t => ?_⟩
    rcases h.torn t with shut | poisoned | failed | recorded
    · exact Or.inl shut
    · exact Or.inr (Or.inl poisoned)
    · simp [free] at failed
    · simp [free] at recorded
  | write front left held whole some =>
    have writing := h.putting held
    exact ⟨fun p => absurd p (by simp [writing.1]), fun t => Or.inl (writing.2 t)⟩
  | interrupted left held => exact h
  | fail left held =>
    exact ⟨fun p => absurd p (by simp [(h.putting held).1]), fun _ => Or.inr (Or.inr (Or.inl rfl))⟩
  | flush held => exact ⟨fun _ => rfl, fun t => Or.inl ((h.putting held).2 t)⟩
  | record held =>
    refine ⟨fun p => absurd (h.poisoned p) (by simp [held]), fun _ => ?_⟩
    exact Or.inr (Or.inr (Or.inr rfl))
  | shutdown held => exact ⟨fun _ => rfl, fun _ => Or.inl rfl⟩
  | panic k held => exact ⟨fun _ => rfl, fun _ => Or.inr (Or.inl rfl)⟩
  | sever => exact ⟨h.poisoned, fun _ => Or.inl rfl⟩

theorem sealed_run (run : Runs codec Wire.opened w) : Sealed w := by
  induction run with
  | refl => exact sealed_opened
  | tail _ step ih => exact ih.step step

theorem Sealed.quiet (h : Sealed w) (torn : w.torn = true) (step : Step codec w w') :
    w'.peer = w.peer ∧ w'.torn = true := by
  cases step with
  | write front left held whole some =>
    have shut := (h.putting held).2 torn
    simp [whole] at shut
  | fail left held => exact ⟨rfl, rfl⟩
  | _ => exact ⟨rfl, torn⟩

theorem quiet_run (start : Runs codec Wire.opened w) (torn : w.torn = true) (run : Runs codec w w') :
    w'.peer = w.peer ∧ w'.torn = true := by
  induction run with
  | refl => exact ⟨rfl, torn⟩
  | tail before step ih =>
    have next := (sealed_run (start.trans before)).quiet ih.2 step
    exact ⟨next.1.trans ih.1, next.2⟩

/-! ## What the peer holds -/

theorem wires_append (es fs : List Encoded) : wires (es ++ fs) = wires es ++ wires fs := List.flatMap_append

theorem Encodes.concat {vs : List T} {es : List Encoded} (h : Encodes codec vs es) {v : T} {e : Encoded}
    (enc : encode codec v = .ok e) : Encodes codec (vs ++ [v]) (es ++ [e]) :=
  List.rel_append h (.cons enc .nil)

/-- What the holder of an unbroken channel still owes the last frame. -/
def Wire.owed (w : Wire T) : List UInt8 :=
  match w.holder with
  | some (.putting left) => left
  | _ => []

/-- The peer holds a beginning of the frames begun: all but what the last writer is
still to write, while the channel is whole. -/
def InOrder (codec : Codec T) (w : Wire T) : Prop :=
  ∃ es, Encodes codec w.begun es ∧ w.peer <+: wires es ∧
    (w.shut = false → w.poisoned = false → w.torn = false → w.peer ++ w.owed = wires es)

theorem InOrder.step (h : InOrder codec w) (s : Sealed w) (step : Step codec w w') : InOrder codec w' := by
  obtain ⟨es, enc, front, whole⟩ := h
  cases step with
  | unencodable v e bad => exact ⟨es, enc, front, whole⟩
  | lock v e made free clean =>
    refine ⟨es ++ [e], enc.concat made, ?_, fun unshut _ calm => ?_⟩
    · rw [wires_append]
      exact front.trans (List.prefix_append _ _)
    · have before := whole unshut clean calm
      rw [Wire.owed, free, List.append_nil] at before
      rw [wires_append, ← before]
      simp [Wire.owed]
  | write some left held unshut moved =>
    have clean := (s.putting held).1
    have calm : w.torn = false := by
      by_contra bad
      have := (s.putting held).2 (by simpa using bad)
      simp [unshut] at this
    have before := whole unshut clean calm
    rw [Wire.owed, held] at before
    simp only [← List.append_assoc] at before
    exact ⟨es, enc, ⟨left, before⟩, fun _ _ _ => before⟩
  | interrupted left held => exact ⟨es, enc, front, whole⟩
  | fail left held => exact ⟨es, enc, front, fun _ _ calm => absurd calm (by simp)⟩
  | flush held =>
    refine ⟨es, enc, front, fun unshut clean calm => ?_⟩
    have before := whole unshut clean calm
    rwa [Wire.owed, held] at before
  | record held =>
    refine ⟨es, enc, front, fun unshut clean calm => ?_⟩
    have before := whole unshut clean calm
    rwa [Wire.owed, held] at before
  | shutdown held => exact ⟨es, enc, front, fun unshut => absurd unshut (by simp)⟩
  | panic k held => exact ⟨es, enc, front, fun _ clean => absurd clean (by simp)⟩
  | sever => exact ⟨es, enc, front, fun unshut => absurd unshut (by simp)⟩

theorem inOrder_run (run : Runs codec Wire.opened w) : InOrder codec w := by
  induction run with
  | refl => exact ⟨[], .nil, List.prefix_rfl, fun _ _ _ => rfl⟩
  | tail before step ih => exact ih.step (sealed_run before) step

theorem Sealed.calm (h : Sealed w) (idle : w.Idle) : w.torn = false := by
  by_contra bad
  rcases h.torn (by simpa using bad) with shut | poisoned | failed | recorded
  · simp [idle.whole] at shut
  · simp [idle.clean] at poisoned
  · simp [idle.free] at failed
  · simp [idle.free] at recorded

end

/-! ## Framing never loses its place -/

variable {T : Type} (codec : Codec T)

/-- A reader returns the frames that arrived whole, in order, and ends clean exactly
between two of them; an oversize length is refused with its body unread. Writers leave
the peer a beginning of the frames they began, whole while the channel is, and not a
byte after a write has failed. -/
theorem framing_keeps_its_place :
    (∀ vs es, Encodes codec vs es → ∀ s : Stream, s.delivered = wires es → s.fails = false →
      receive codec s = (vs, .clean)) ∧
    (∀ vs es, Encodes codec vs es → ∀ s : Stream, s.delivered <+: wires es →
      (∃ k ≤ es.length, (receive codec s).1 = vs.take k ∧ wires (es.take k) <+: s.delivered ∧
        (∀ e, es[k]? = some e → ¬ wires (es.take k) ++ e.wire <+: s.delivered) ∧
        ((receive codec s).2 = .clean ↔ s.delivered = wires (es.take k) ∧ s.fails = false)) ∧
      ((∀ k, s.delivered ≠ wires (es.take k)) ∨ s.fails = true →
        ∃ err, (receive codec s).2 = .failed err)) ∧
    (∀ s : Stream, 4 ≤ s.delivered.length → maxFrameLen < ofLeBytes (s.delivered.take 4) →
      ∃ s', readFrame codec s = (.error (oversize (ofLeBytes (s.delivered.take 4))), s') ∧
        s'.delivered = s.delivered.drop 4) ∧
    (∀ w w', Runs codec Wire.opened w → w.torn = true → Runs codec w w' → w'.peer = w.peer) ∧
    (∀ w, Runs codec Wire.opened w → ∀ s : Stream, s.delivered <+: w.peer →
      (receive codec s).1 <+: w.begun ∧
      (w.Idle → s.delivered = w.peer → s.fails = false → receive codec s = (w.begun, .clean))) := by
  have whole : ∀ vs es, Encodes codec vs es → ∀ s : Stream, s.delivered = wires es → s.fails = false →
      receive codec s = (vs, .clean) := by
    intro vs es enc s all calm
    obtain ⟨k, bound, frames, front, most, clean⟩ := receive_prefix enc (s := s) (by simp [all])
    have last : k = es.length := by
      by_contra short
      have inside : k < es.length := by omega
      refine most es[k] (List.getElem?_eq_getElem inside) ?_
      rw [all]
      nth_rewrite 3 [← List.take_append_drop (k + 1) es]
      rw [← List.take_append_getElem inside, wires_append, wires_append, List.append_assoc]
      simp [wires]
    rw [last, List.take_length] at clean
    rw [last, ← enc.length_eq, List.take_length] at frames
    exact Prod.ext frames (clean.mpr ⟨all, calm⟩)
  refine ⟨whole, ?_, ?_, fun w w' start torn run => (quiet_run start torn run).1, ?_⟩
  · intro vs es enc s front
    have read := receive_prefix enc front
    refine ⟨read, fun cut => ?_⟩
    obtain ⟨k, _, _, _, _, clean⟩ := read
    cases h : (receive codec s).2 with
    | clean =>
      have ended := clean.mp h
      rcases cut with cut | cut
      · exact absurd ended.1 (cut k)
      · simp [ended.2] at cut
    | failed err => exact ⟨err, rfl⟩
  · intro s long past
    obtain ⟨s', hbody, rest⟩ := readBody_oversize long past
    exact ⟨s', by simp only [readFrame, hbody], rest⟩
  · intro w run s front
    obtain ⟨es, enc, peer, owed⟩ := inOrder_run run
    refine ⟨?_, fun idle all calm => ?_⟩
    · obtain ⟨k, _, frames, _⟩ := receive_prefix enc (front.trans peer)
      rw [frames]
      exact List.take_prefix _ _
    · have full := owed idle.whole idle.clean ((sealed_run run).calm idle)
      rw [Wire.owed, idle.free, List.append_nil] at full
      exact whole _ es enc s (all.trans full) calm

def boolCodec : Codec Bool where
  serialize b := .ok (if b then [116, 114, 117, 101] else [102, 97, 108, 115, 101])
  deserialize bs :=
    if bs = [116, 114, 117, 101] then .ok true
    else if bs = [102, 97, 108, 115, 101] then .ok false
    else .error "expected a boolean"
  round_trip v body h := by
    cases v with
    | true =>
      cases h
      rfl
    | false =>
      cases h
      rfl

/-- Two frames, the second begun in the piece that ends the first. -/
theorem framing_of_true :
    receive boolCodec [.bytes 4 [0], .interrupted, .bytes 0 [0, 116, 114], .bytes 117 [101, 5, 0], .interrupted,
      .bytes 0 [0, 102, 97], .bytes 108 [115, 101]] = ([true, false], .clean) := by
  apply (framing_keeps_its_place boolCodec).1 [true, false]
    [⟨4, [116, 114, 117, 101], rfl, by decide⟩, ⟨5, [102, 97, 108, 115, 101], rfl, by decide⟩]
  · exact .cons rfl (.cons rfl .nil)
  · rfl
  · rfl

end Ral.Channel
