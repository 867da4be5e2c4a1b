import Ral.Eval.State

/-! # A frame restores what it changed

Putting a lifted frame back takes back what lifting it did, and commutes with every
session-level change made since.
-/

namespace Ral.Eval

open Ral.Ir

namespace HandlerStack

theorem Later.removeByHandle {h h' : HandlerStack} (l : h.Later h') (o : h.Ordered) (handle : ℕ) :
    (h.removeByHandle handle).Later (h'.removeByHandle handle) where
  ordered _ := (l.ordered o).of_sublist (without_sublist _ _) le_rfl
  within := by
    rw [o.frames_removeByHandle, (l.ordered o).frames_removeByHandle, List.filter_comm, l.within,
      List.filter_comm]
  base := l.base
  next := l.next
  minted f hf := by
    rw [(l.ordered o).frames_removeByHandle, List.mem_filter] at hf
    rcases l.minted f hf.1 with old | new
    · left
      rw [o.frames_removeByHandle, List.mem_filter]
      exact ⟨old, hf.2⟩
    · exact Or.inr new

/-- A frame no handle of the stack names, minted before the next. -/
structure Fits (f : Held) (h : HandlerStack) : Prop where
  minted : f.1 < h.nextHandle
  absent : ∀ g ∈ h.frames, g.1 ≠ f.1

theorem Fits.later {f : Held} {h h' : HandlerStack} (fits : h.Fits f) (l : h.Later h') : h'.Fits f where
  minted := lt_of_lt_of_le fits.minted l.next
  absent g hg := by
    rcases l.minted g hg with old | new
    · exact fits.absent g old
    · have := fits.minted
      omega

theorem Ordered.restoreMatched {f : Held} {h : HandlerStack} (o : h.Ordered) (fits : h.Fits f) :
    (h.restoreMatched f).Ordered where
  ascending := by
    rw [o.frames_restoreMatched]
    apply List.pairwise_append.mpr
    refine ⟨o.ascending.sublist List.filter_sublist, ?_, ?_⟩
    · apply List.pairwise_cons.mpr
      refine ⟨fun g hg => ?_, o.ascending.sublist List.filter_sublist⟩
      simp only [List.mem_filter, decide_eq_true_eq] at hg
      have := fits.absent g hg.1
      omega
    · intro g hg k hk
      simp only [List.mem_filter, List.mem_cons, decide_eq_true_eq] at hg hk
      rcases hk with rfl | hk
      · exact hg.2
      · omega
  below g hg := by
    rw [o.frames_restoreMatched] at hg
    simp only [List.mem_append, List.mem_cons, List.mem_filter] at hg
    rcases hg with hg | rfl | hg
    · exact o.below g hg.1
    · exact fits.minted
    · exact o.below g hg.1

theorem Later.restoreMatched {h h' : HandlerStack} (l : h.Later h') (o : h.Ordered) {f : Held}
    (fits : h.Fits f) : (h.restoreMatched f).Later (h'.restoreMatched f) where
  ordered _ := (l.ordered o).restoreMatched (fits.later l)
  within := by
    have halves (p : Held → Bool) : (h'.frames.filter p).filter (fun g => g.2.kind = .within) =
        (h.frames.filter p).filter fun g => g.2.kind = .within := by
      rw [List.filter_comm, l.within, List.filter_comm]
    rw [o.frames_restoreMatched, (l.ordered o).frames_restoreMatched]
    simp only [List.filter_append, List.filter_cons, halves]
  base := l.base
  next := l.next
  minted g hg := by
    rw [(l.ordered o).frames_restoreMatched] at hg
    rw [o.frames_restoreMatched]
    simp only [List.mem_append, List.mem_cons, List.mem_filter] at hg ⊢
    rcases hg with hg | rfl | hg
    · rcases l.minted g hg.1 with old | new
      · exact Or.inl (Or.inl ⟨old, hg.2⟩)
      · exact Or.inr new
    · exact Or.inl (Or.inr (Or.inl rfl))
    · rcases l.minted g hg.1 with old | new
      · exact Or.inl (Or.inr (Or.inr ⟨old, hg.2⟩))
      · exact Or.inr new

/-- Taking off the frame just pushed. -/
theorem Ordered.later_removeByHandle_push {h : HandlerStack} (o : h.Ordered) (entries : List HandlerEntry)
    (catchAll : Option Value) :
    h.Later ((h.push entries catchAll).2.removeByHandle (h.push entries catchAll).1) := by
  have pushed : (h.push entries catchAll).2.Ordered := o.pushFrame _
  have frames : ((h.push entries catchAll).2.removeByHandle (h.push entries catchAll).1).frames =
      h.frames := by
    rw [pushed.frames_removeByHandle]
    show (h.frames ++ [(h.nextHandle, HandlerFrame.mk entries catchAll .within)]).filter
      (fun f => f.1 ≠ h.nextHandle) = h.frames
    rw [List.filter_append, List.filter_cons_of_neg (by simp), List.filter_nil, List.append_nil,
      List.filter_eq_self]
    intro f hf
    have := o.below f hf
    simp only [ne_eq, decide_eq_true_eq]
    omega
  exact {
    ordered := fun _ => pushed.of_sublist (without_sublist _ _) le_rfl
    within := by rw [frames]
    base := rfl
    next := Nat.le_succ _
    minted := fun f hf => Or.inl (frames ▸ hf) }

theorem stripMatched_frames {depth : ℕ} {h h' : HandlerStack} {f : Held}
    (strip : h.stripMatched depth = some (f, h')) :
    ∃ below above, h.frames = below ++ f :: above ∧ h'.frames = below ++ above ∧ h'.base = h.base ∧
      h'.nextHandle = h.nextHandle := by
  unfold stripMatched at strip
  split at strip
  · next g found =>
      rw [Option.some.injEq, Prod.mk.injEq] at strip
      obtain ⟨rfl, rfl⟩ := strip
      obtain ⟨inside, rfl⟩ := List.getElem?_eq_some_iff.mp found
      refine ⟨h.frames.take (h.frames.length - depth), h.frames.drop (h.frames.length - depth + 1), ?_, ?_,
        rfl, rfl⟩
      · rw [← List.drop_eq_getElem_cons inside, List.take_append_drop]
      · exact List.eraseIdx_eq_take_drop_succ _ _
  · exact absurd strip (by simp)

section Stripped

variable {depth : ℕ} {h h' : HandlerStack} {f : Held} (o : h.Ordered)
  (strip : h.stripMatched depth = some (f, h'))

include o strip

theorem Ordered.stripMatched : h'.Ordered := by
  obtain ⟨below, above, hf, hf', _, next⟩ := stripMatched_frames strip
  apply o.of_sublist _ (le_of_eq next.symm)
  rw [hf, hf']
  exact (List.sublist_cons_self f above).append_left below

theorem Ordered.fits_stripMatched : h'.Fits f := by
  obtain ⟨below, above, hf, hf', _, next⟩ := stripMatched_frames strip
  have ascending := o.ascending
  rw [hf, List.pairwise_append, List.pairwise_cons] at ascending
  refine ⟨?_, fun g hg => ?_⟩
  · rw [next]
    exact o.below f (by simp [hf])
  · rw [hf', List.mem_append] at hg
    rcases hg with hg | hg
    · have := ascending.2.2 g hg f List.mem_cons_self
      omega
    · have := ascending.2.1.1 g hg
      omega

theorem Ordered.later_restoreMatched : h.Later (h'.restoreMatched f) := by
  obtain ⟨below, above, hf, hf', base, next⟩ := stripMatched_frames strip
  have ascending := o.ascending
  rw [hf, List.pairwise_append, List.pairwise_cons] at ascending
  have older : ∀ g ∈ below, g.1 < f.1 := fun g hg => ascending.2.2 g hg f List.mem_cons_self
  have newer : ∀ g ∈ above, ¬ g.1 < f.1 := fun g hg => by
    have := ascending.2.1.1 g hg
    omega
  have frames : (h'.restoreMatched f).frames = h.frames := by
    rw [(o.stripMatched strip).frames_restoreMatched, hf', hf, List.filter_append, List.filter_append,
      List.filter_eq_self.mpr (by simpa using older), List.filter_eq_nil_iff.mpr (by simpa using newer),
      List.filter_eq_nil_iff.mpr (by simpa using older), List.filter_eq_self.mpr (by simpa using newer),
      List.append_nil, List.nil_append]
  exact {
    ordered := fun _ => (o.stripMatched strip).restoreMatched (o.fits_stripMatched strip)
    within := by rw [frames]
    base := base
    next := le_of_eq next.symm
    minted := fun g hg => Or.inl (frames ▸ hg) }

end Stripped

end HandlerStack

end Ral.Eval
