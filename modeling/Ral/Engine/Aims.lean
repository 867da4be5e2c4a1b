import Ral.Engine.Scopes

/-! # Strikes and the dispatches they name

Over every interleaving: the current dispatch's node carries the strongest cause sent for it or for
the root, and the slot remembers what was sent for one still to open, so long as no strike for
another dispatch displaces that memory.
-/

namespace Ral.Engine
open Process

/-! ## The events of a run -/

section Events
variable (events : List Event) (id : DispatchId) (node : ℕ) (cause : CancelCause)

@[simp] theorem opened_opened : opened (events ++ [.opened id node]) = opened events ++ [id] := by
  simp [opened]

@[simp] theorem opened_struck : opened (events ++ [.struck id cause]) = opened events := by
  simp [opened]

@[simp] theorem opened_ended : opened (events ++ [.ended cause]) = opened events := by
  simp [opened]

theorem struck_append (more : List Event) (id : DispatchId) :
    struck (events ++ more) id = max (struck events id) (struck more id) := by
  induction events with
  | nil => simp [struck]
  | cons e events ih =>
    unfold struck at ih ⊢
    cases e with
    | opened _ _ => simpa using ih
    | ended _ => simpa using ih
    | struck other cause =>
      simp only [List.cons_append, List.foldr_cons, ih]
      split <;> simp [max_assoc]

theorem ended_append (more : List Event) : ended (events ++ more) = max (ended events) (ended more) := by
  induction events with
  | nil => simp [ended]
  | cons e events ih =>
    unfold ended at ih ⊢
    cases e with
    | opened _ _ => simpa using ih
    | struck _ _ => simpa using ih
    | ended cause => simp only [List.cons_append, List.foldr_cons, ih, max_assoc]

@[simp] theorem struck_opened (other : DispatchId) :
    struck (events ++ [.opened id node]) other = struck events other := by
  simp [struck]

@[simp] theorem struck_ended (other : DispatchId) :
    struck (events ++ [.ended cause]) other = struck events other := by
  simp [struck]

theorem struck_struck (other : DispatchId) : struck (events ++ [.struck id cause]) other =
    if id = other then max (struck events other) cause.asU8 else struck events other := by
  rw [struck_append]
  by_cases h : id = other <;> simp [struck, h]

@[simp] theorem ended_opened : ended (events ++ [.opened id node]) = ended events := by
  simp [ended]

@[simp] theorem ended_struck : ended (events ++ [.struck id cause]) = ended events := by
  simp [ended]

@[simp] theorem ended_ended : ended (events ++ [.ended cause]) = max (ended events) cause.asU8 := by
  rw [ended_append]
  simp [ended]

theorem mem_opened {events : List Event} {id : DispatchId} :
    id ∈ opened events ↔ ∃ node, .opened id node ∈ events := by
  unfold opened
  rw [List.mem_filterMap]
  constructor
  · rintro ⟨e, he, h⟩
    cases e with
    | opened other node =>
      cases h
      exact ⟨node, he⟩
    | struck _ _ => cases h
    | ended _ => cases h
  · rintro ⟨node, h⟩
    exact ⟨_, h, rfl⟩

end Events

/-! ## What holds between the operations -/

/-- No strike is displaced by this one: `id` is current, or nothing is remembered for another
dispatch still to open. -/
def Spares (events : List Event) (s : Scopes) (id : DispatchId) : Prop :=
  s.slot.current.map Prod.fst ≠ some id →
    ∀ pending ∈ s.slot.foretold, pending.1 ≠ id → pending.1 ∈ opened events

/-- What an engine's scopes owe to the strikes that came. -/
structure Exact (start : Scopes) (events : List Event) (s : Scopes) : Prop where
  root : s.root = start.root
  ended : s.world.flagAt s.root = max (start.world.flagAt start.root) (ended events)
  standing : ∀ id node, .opened id node ∈ events → node < s.world.nodes.length ∧ node ≠ s.root
  current : s.slot.current.map Prod.fst = (opened events).getLast?
  own : ∀ id node, s.slot.current = some (id, node) → .opened id node ∈ events
  /-- Its node carries the strongest cause sent for it or for the root, and no other. -/
  aimed : ∀ id node, s.slot.current = some (id, node) →
    s.world.flagAt node = max (struck events id) (s.world.flagAt s.root)
  /-- Of a dispatch still to open the slot remembers the strongest cause sent. -/
  foretold : ∀ id, id ∉ opened events → s.memory id = struck events id

namespace Scopes

variable (s : Scopes)

theorem flagAt_struckBy (w : World) {node : ℕ} (cause : Option CancelCause) (h : node < w.nodes.length) :
    (struckBy w node cause).flagAt node = max (w.flagAt node) (cause.elim 0 CancelCause.asU8) := by
  cases cause with
  | none => simp [struckBy]
  | some cause => exact w.flagAt_cancel cause h

theorem flagAt_struckBy_of_ne (w : World) {node i : ℕ} (cause : Option CancelCause) (h : node ≠ i) :
    (struckBy w node cause).flagAt i = w.flagAt i := by
  cases cause with
  | none => rfl
  | some cause => exact w.flagAt_cancel_of_ne cause h

theorem rank_cause_root {w : World} {i : ℕ} (h : ∃ v, w.nodes[i]? = some v ∧ v.parent = none) :
    (w.cause i).elim 0 CancelCause.asU8 = w.flagAt i := by
  obtain ⟨v, hv, hp⟩ := h
  have hflag : w.flagAt i = v.flag := by simp [World.flagAt, hv]
  rw [World.cause_root hv hp, hflag]
  by_cases h : v.flag = 0
  · simp [h, CancelCause.fromRepr]
  · obtain ⟨c, hc, hrank⟩ := CancelCause.fromRepr_of_pos h v.causes
    simp [hc, hrank]

theorem memory_eq (id : DispatchId) : s.memory id =
    ((s.slot.foretold.filter fun pending => pending.1 = id).map Prod.snd).elim 0 CancelCause.asU8 := by
  unfold memory
  cases s.slot.foretold with
  | none => rfl
  | some pending => by_cases h : pending.1 = id <;> simp [h, Option.filter]

section Opening
variable (id : DispatchId) (within : Option ℕ) (stands : ∀ p ∈ within, p < s.world.nodes.length)

theorem flagAt_openFor : (s.openFor id within stands).world.flagAt s.world.nodes.length =
    max (s.memory id) (s.world.flagAt s.root) := by
  have hfresh : s.world.flagAt s.world.nodes.length = 0 := by simp [World.flagAt]
  have hroot : (s.world.mint (some (within.getD s.dispatches)) none
      (s.hangs within stands)).cause s.root = s.world.cause s.root := by
    obtain ⟨v, hv, hp⟩ := s.durable
    rw [World.cause_root hv hp, World.cause_root (v := v) (by simp [World.mint, List.getElem?_append_left s.rooted, hv]) hp]
  have hminted : s.world.nodes.length < (s.world.mint (some (within.getD s.dispatches)) none
      (s.hangs within stands)).nodes.length := by simp [World.mint]
  have hended : s.world.nodes.length < (struckBy (s.world.mint (some (within.getD s.dispatches)) none
      (s.hangs within stands)) s.world.nodes.length (s.world.cause s.root)).nodes.length :=
    (later_struckBy _ _ _).standing hminted
  simp only [openFor, advance]
  rw [hroot, flagAt_struckBy _ _ hended, flagAt_struckBy _ _ hminted, World.flagAt_mint, hfresh,
    rank_cause_root s.durable, s.memory_eq, Nat.zero_max, Nat.max_comm]

theorem flagAt_openFor_of_ne {i : ℕ} (h : i ≠ s.world.nodes.length) :
    (s.openFor id within stands).world.flagAt i = s.world.flagAt i := by
  simp only [openFor, advance]
  rw [flagAt_struckBy_of_ne _ _ (Ne.symm h), flagAt_struckBy_of_ne _ _ (Ne.symm h), World.flagAt_mint]

theorem length_openFor : (s.openFor id within stands).world.nodes.length = s.world.nodes.length + 1 := by
  simp [openFor, advance, length_struckBy, World.mint]

theorem memory_openFor {other : DispatchId} (h : other ≠ id) :
    (s.openFor id within stands).memory other = s.memory other := by
  simp only [memory, openFor, advance]
  cases hf : s.slot.foretold with
  | none => rfl
  | some pending =>
    by_cases hid : pending.1 = id
    · simp [Option.filter, hid, Ne.symm h]
    · simp [Option.filter, hid]

end Opening

section Aiming
variable (id : DispatchId) (cause : CancelCause)

theorem aim_current {node : ℕ} (h : s.slot.current = some (id, node)) : s.aim id cause =
    s.advance (s.world.cancel node cause) s.slot (s.world.later_cancel node cause) := by
  simp [aim, h]

theorem aim_other (h : s.slot.current.map Prod.fst ≠ some id) :
    s.aim id cause = { s with slot := s.slot.foretell id cause } := by
  cases hc : s.slot.current with
  | none => simp [aim, hc]
  | some current =>
    have hne : current.1 ≠ id := by simpa [hc] using h
    simp [aim, hc, hne]

theorem memory_foretell :
    ({ s with slot := s.slot.foretell id cause } : Scopes).memory id = max (s.memory id) cause.asU8 := by
  unfold memory Slot.foretell
  cases s.slot.foretold with
  | none => simp
  | some pending =>
    by_cases hid : pending.1 = id
    · simp [hid, CancelCause.asU8_strongest]
    · simp [hid]

theorem memory_foretell_of_ne {other : DispatchId} (h : other ≠ id) :
    ({ s with slot := s.slot.foretell id cause } : Scopes).memory other = 0 := by
  simp [memory, Slot.foretell, Ne.symm h]

end Aiming

theorem length_endRoot (cause : CancelCause) :
    (s.endRoot cause).world.nodes.length = s.world.nodes.length := by
  unfold endRoot
  cases s.slot.current with
  | none => exact s.world.length_cancel s.root cause
  | some current => exact (World.length_cancel _ _ _).trans (s.world.length_cancel s.root cause)

end Scopes

/-! ## Each operation keeps it -/

namespace Exact

variable {start : Scopes} {events : List Event} {s : Scopes}

theorem initial (h : start.slot = ⟨none, none⟩) : Exact start [] start where
  root := rfl
  ended := by simp [Engine.ended]
  standing := by simp
  current := by simp [h, opened]
  own := by simp [h]
  aimed := by simp [h]
  foretold := by simp [Scopes.memory, h, struck]

theorem openFor (exact : Exact start events s) (id : DispatchId) (within : Option ℕ)
    (stands : ∀ p ∈ within, p < s.world.nodes.length) (fresh : id ∉ opened events) :
    Exact start (events ++ [.opened id s.world.nodes.length]) (s.openFor id within stands) where
  root := exact.root
  ended := by
    have hroot : s.root ≠ s.world.nodes.length := Nat.ne_of_lt s.rooted
    rw [ended_opened, ← exact.ended]
    exact s.flagAt_openFor_of_ne id within stands hroot
  standing := by
    intro other node h
    rw [s.length_openFor]
    rcases List.mem_append.mp h with h | h
    · obtain ⟨hlt, hne⟩ := exact.standing other node h
      exact ⟨by omega, hne⟩
    · cases List.mem_singleton.mp h
      exact ⟨by omega, (Nat.ne_of_lt s.rooted).symm⟩
  current := by
    rw [opened_opened, List.getLast?_concat]
    rfl
  own := by
    intro other node h
    cases (Option.some.inj h : (id, s.world.nodes.length) = (other, node))
    exact List.mem_append_right _ (List.mem_singleton_self _)
  aimed := by
    intro other node h
    cases (Option.some.inj h : (id, s.world.nodes.length) = (other, node))
    have hroot : s.root ≠ s.world.nodes.length := Nat.ne_of_lt s.rooted
    have hflag := s.flagAt_openFor_of_ne id within stands hroot
    rw [struck_opened, ← exact.foretold id fresh]
    refine (s.flagAt_openFor id within stands).trans ?_
    rw [show (s.openFor id within stands).root = s.root from rfl, hflag]
  foretold := by
    intro other h
    rw [opened_opened] at h
    have hne : other ≠ id := by
      rintro rfl
      exact h (List.mem_append_right _ (List.mem_singleton_self _))
    have hold : other ∉ opened events := fun hmem => h (List.mem_append_left _ hmem)
    rw [struck_opened, s.memory_openFor id within stands hne]
    exact exact.foretold other hold

theorem spared (exact : Exact start events s) {id : DispatchId} (hc : s.slot.current.map Prod.fst ≠ some id)
    (spares : Spares events s id) {other : DispatchId} (hne : other ≠ id) (h : other ∉ opened events) :
    struck events other = 0 := by
  rw [← exact.foretold other h]
  unfold Scopes.memory
  cases hf : s.slot.foretold with
  | none => rfl
  | some pending =>
    by_cases hother : pending.1 = other
    · have hmem := spares hc pending hf (hother ▸ hne)
      rw [hother] at hmem
      exact absurd hmem h
    · simp [hother]

theorem aim_current (exact : Exact start events s) {id : DispatchId} {node : ℕ} (cause : CancelCause)
    (hslot : s.slot.current = some (id, node)) :
    Exact start (events ++ [.struck id cause]) (s.aim id cause) := by
  obtain ⟨hlt, hne⟩ := exact.standing id node (exact.own id node hslot)
  have hroot : (s.world.cancel node cause).flagAt s.root = s.world.flagAt s.root :=
    s.world.flagAt_cancel_of_ne cause hne
  rw [s.aim_current id cause hslot]
  constructor
  case root => exact exact.root
  case ended =>
    rw [ended_struck, ← exact.ended]
    exact hroot
  case standing =>
    intro other place h
    have hold : .opened other place ∈ events := by simpa using h
    obtain ⟨hplace, hdistinct⟩ := exact.standing other place hold
    exact ⟨(s.world.later_cancel node cause).standing hplace, hdistinct⟩
  case current =>
    rw [opened_struck]
    exact exact.current
  case own =>
    intro other place h
    exact List.mem_append_left _ (exact.own other place h)
  case aimed =>
    intro other place h
    cases Option.some.inj (hslot.symm.trans h)
    rw [struck_struck, if_pos rfl]
    refine (s.world.flagAt_cancel cause hlt).trans ?_
    rw [exact.aimed id node hslot, Nat.max_right_comm]
    exact congrArg _ hroot.symm
  case foretold =>
    intro other h
    rw [opened_struck] at h
    have hother : id ≠ other := by
      rintro rfl
      exact h (mem_opened.mpr ⟨node, exact.own id node hslot⟩)
    rw [struck_struck, if_neg hother]
    exact exact.foretold other h

theorem aim_other (exact : Exact start events s) {id : DispatchId} (cause : CancelCause)
    (hc : s.slot.current.map Prod.fst ≠ some id) (spares : Spares events s id) :
    Exact start (events ++ [.struck id cause]) (s.aim id cause) := by
  rw [s.aim_other id cause hc]
  constructor
  case root => exact exact.root
  case ended =>
    rw [ended_struck]
    exact exact.ended
  case standing =>
    intro other place h
    exact exact.standing other place (by simpa using h)
  case current =>
    rw [opened_struck]
    exact exact.current
  case own =>
    intro other place h
    exact List.mem_append_left _ (exact.own other place h)
  case aimed =>
    intro other place h
    have hne : id ≠ other := by
      rintro rfl
      exact hc (congrArg (Option.map Prod.fst) h)
    rw [struck_struck, if_neg hne]
    exact exact.aimed other place h
  case foretold =>
    intro other h
    rw [opened_struck] at h
    rw [struck_struck]
    by_cases hid : id = other
    · subst hid
      rw [if_pos rfl, s.memory_foretell, exact.foretold id h]
    · rw [if_neg hid, s.memory_foretell_of_ne id cause (Ne.symm hid)]
      exact (exact.spared hc spares (Ne.symm hid) h).symm

theorem aim (exact : Exact start events s) (id : DispatchId) (cause : CancelCause)
    (spares : Spares events s id) : Exact start (events ++ [.struck id cause]) (s.aim id cause) := by
  by_cases hc : s.slot.current.map Prod.fst = some id
  · obtain ⟨⟨_, node⟩, hslot, rfl⟩ := Option.map_eq_some_iff.mp hc
    exact exact.aim_current cause hslot
  · exact exact.aim_other cause hc spares

theorem endRoot (exact : Exact start events s) (cause : CancelCause) :
    Exact start (events ++ [.ended cause]) (s.endRoot cause) := by
  have hroot := s.world.flagAt_cancel cause s.rooted
  have hafter : (s.endRoot cause).world.flagAt s.root = max (s.world.flagAt s.root) cause.asU8 := by
    unfold Scopes.endRoot
    cases hslot : s.slot.current with
    | none => exact hroot
    | some current =>
      obtain ⟨_, hne⟩ := exact.standing _ _ (exact.own _ _ hslot)
      exact (World.flagAt_cancel_of_ne _ cause hne).trans hroot
  have hslot : (s.endRoot cause).slot = s.slot := by
    unfold Scopes.endRoot
    cases s.slot.current <;> rfl
  have hsame : (s.endRoot cause).root = s.root := by
    unfold Scopes.endRoot
    cases s.slot.current <;> rfl
  constructor
  case root => exact hsame.trans exact.root
  case ended =>
    rw [hsame, hafter, exact.ended, ended_ended, Nat.max_assoc]
  case standing =>
    intro other place h
    obtain ⟨hplace, hdistinct⟩ := exact.standing other place (by simpa using h)
    rw [hsame, s.length_endRoot]
    exact ⟨hplace, hdistinct⟩
  case current =>
    rw [hslot, opened_ended]
    exact exact.current
  case own =>
    intro other place h
    rw [hslot] at h
    exact List.mem_append_left _ (exact.own other place h)
  case aimed =>
    intro other place h
    rw [hslot] at h
    obtain ⟨hlt, hne⟩ := exact.standing other place (exact.own other place h)
    have hnode : (s.endRoot cause).world.flagAt place = max (s.world.flagAt place) cause.asU8 := by
      have hcancel := s.world.flagAt_cancel_of_ne cause (Ne.symm hne)
      have hlt' : place < (s.world.cancel s.root cause).nodes.length := by rwa [World.length_cancel]
      simp only [Scopes.endRoot, h, Scopes.advance]
      rw [World.flagAt_cancel _ cause hlt', hcancel]
    rw [hnode, hsame, hafter, struck_ended, exact.aimed other place h, Nat.max_assoc]
  case foretold =>
    intro other h
    rw [opened_ended] at h
    rw [struck_ended, ← exact.foretold other h]
    simp only [Scopes.memory, hslot]

theorem other (exact : Exact start events s) {w : World} (step : Step s.world w)
    (kept : ∀ i, Owned s events i → w.nodes[i]? = s.world.nodes[i]?) :
    Exact start events (s.advance w s.slot step.later) := by
  have hkept (i : ℕ) (h : Owned s events i) : w.flagAt i = s.world.flagAt i := by
    rw [World.flagAt, World.flagAt, kept i h]
  have hroot : w.flagAt s.root = s.world.flagAt s.root := hkept s.root (Or.inl rfl)
  constructor
  case root => exact exact.root
  case ended => exact hroot.trans exact.ended
  case standing =>
    intro id place h
    obtain ⟨hplace, hdistinct⟩ := exact.standing id place h
    exact ⟨step.later.standing hplace, hdistinct⟩
  case current => exact exact.current
  case own => exact exact.own
  case aimed =>
    intro id place h
    have hnode := hkept place (Or.inr ⟨id, exact.own id place h⟩)
    exact hnode.trans ((exact.aimed id place h).trans (congrArg _ hroot.symm))
  case foretold => exact exact.foretold

end Exact

theorem Runs.exact {start : Scopes} {events : List Event} {s : Scopes} (h : start.slot = ⟨none, none⟩)
    (run : Runs Spares start events s) : Exact start events s := by
  induction run with
  | start => exact .initial h
  | opened id within stands _ fresh ih => exact ih.openFor id within stands fresh
  | struck id cause _ spares ih => exact ih.aim id cause spares
  | ended cause _ ih => exact ih.endRoot cause
  | other step _ kept ih => exact ih.other step kept

/-! ## Which strikes are in force -/

namespace Exact

variable {start : Scopes} {events : List Event} {s : Scopes}

theorem aim_iff (exact : Exact start events s) (id : DispatchId) (cause : CancelCause) :
    Exact start (events ++ [.struck id cause]) (s.aim id cause) ↔ Spares events s id := by
  constructor
  · intro after hc pending hp hne
    by_contra hopen
    have hlost := after.foretold pending.1 (by rwa [opened_struck])
    rw [s.aim_other id cause hc, s.memory_foretell_of_ne id cause hne, struck_struck,
      if_neg (Ne.symm hne), ← exact.foretold pending.1 hopen] at hlost
    have hkept : s.memory pending.1 = pending.2.asU8 := by
      simp [Scopes.memory, Option.mem_def.mp hp]
    have hpos : 0 < pending.2.asU8 := pending.2.asU8_pos
    omega
  · exact exact.aim id cause

theorem in_force (exact : Exact start events s) {id : DispatchId} {node : ℕ}
    (h : s.slot.current = some (id, node)) : ∃ found, inForce (s.world.look node) = some found ∧
      max (struck events id) (s.world.flagAt s.root) ≤ rank found := by
  obtain ⟨found, hfound, hle⟩ := s.world.flagAt_le_rank node
  rw [exact.aimed id node h] at hle
  exact ⟨found, hfound, hle⟩

theorem late (exact : Exact start events s) {id : DispatchId}
    (hc : s.slot.current.map Prod.fst ≠ some id) (cause : CancelCause) :
    (s.aim id cause).world = s.world ∧ (s.aim id cause).slot.current = s.slot.current ∧
      (id ∈ opened events → Spares events s id →
        ∀ later, later ∉ opened events → (s.aim id cause).memory later = s.memory later) := by
  rw [s.aim_other id cause hc]
  refine ⟨rfl, rfl, ?_⟩
  intro hid spares later hlater
  have hne : later ≠ id := by
    rintro rfl
    exact hlater hid
  rw [s.memory_foretell_of_ne id cause hne, exact.foretold later hlater]
  exact (exact.spared hc spares hne hlater).symm

end Exact

/-- Where every strike that came spared what was remembered, the current dispatch is struck by what
was sent for it or for the root and by nothing else, from when it opens; a strike for it writes its
own node only, and a strike for a dispatch already replaced writes none. -/
theorem strikes_reach_their_dispatch {start : Scopes} {events : List Event} {s : Scopes}
    (idle : start.slot = ⟨none, none⟩) (run : Runs Spares start events s) :
    Exact start events s ∧
    (∀ id node, s.slot.current = some (id, node) → ∃ found, inForce (s.world.look node) = some found ∧
      max (struck events id) (s.world.flagAt s.root) ≤ rank found) ∧
    (∀ id node cause, s.slot.current = some (id, node) → (s.aim id cause).slot = s.slot ∧
      ∀ i, i ≠ node → (s.aim id cause).world.nodes[i]? = s.world.nodes[i]?) ∧
    (∀ id cause, s.slot.current.map Prod.fst ≠ some id →
      (s.aim id cause).world = s.world ∧ (s.aim id cause).slot.current = s.slot.current ∧
      (id ∈ opened events → Spares events s id →
        ∀ later, later ∉ opened events → (s.aim id cause).memory later = s.memory later)) ∧
    ∀ id cause, Exact start (events ++ [.struck id cause]) (s.aim id cause) ↔ Spares events s id := by
  have exact := run.exact idle
  refine ⟨exact, fun _ _ => exact.in_force, ?_, fun _ cause hc => exact.late hc cause, exact.aim_iff⟩
  intro id node cause h
  rw [s.aim_current id cause h]
  exact ⟨rfl, fun i hi => s.world.getElem?_cancel_of_ne cause (Ne.symm hi)⟩

/-! ## A late strike displaces a foretold one -/

theorem stands_none (w : World) : ∀ p ∈ (none : Option ℕ), p < w.nodes.length := by simp

theorem stands_root : ∀ p ∈ some 0, p < (World.empty.mint none none (stands_none _)).nodes.length := by
  simp [World.mint]

/-- An engine's scopes before its first dispatch: a durable root and the anchor under it. -/
def Scopes.booted : Scopes where
  world := (World.empty.mint none none (stands_none _)).mint (some 0) none stands_root
  dispatches := 1
  root := 0
  slot := ⟨none, none⟩
  anchored := by decide
  durable := ⟨Vertex.fresh none none, rfl, rfl⟩

theorem strikes_reach_their_dispatch_booted :
    Exact .booted [.struck 1 .interrupted, .opened 1 2]
      ((Scopes.booted.aim 1 .interrupted).openFor 1 none (by simp)) := by
  have hrun : Runs Spares .booted [.struck 1 .interrupted, .opened 1 2]
      ((Scopes.booted.aim 1 .interrupted).openFor 1 none (by simp)) :=
    .opened 1 none (by simp) (.struck 1 .interrupted .start (by simp [Spares, Scopes.booted])) (by decide)
  exact (strikes_reach_their_dispatch rfl hrun).1

/-- Dispatch 3 is struck before it opens, and a strike for dispatch 1 comes late: dispatch 3 opens
unstruck. -/
theorem foretold_strike_displaced : ¬ ∀ (start : Scopes) (events : List Event) (s : Scopes),
    start.slot = ⟨none, none⟩ → Runs (fun _ _ _ => True) start events s →
      ∀ id node, s.slot.current = some (id, node) → struck events id ≤ s.world.flagAt node := by
  intro h
  have run := Runs.opened 3 none (by simp) (.struck 1 .interrupted (.struck 3 .interrupted
    (.opened 2 none (by simp) (.opened 1 none (by simp) (@Runs.start (fun _ _ _ => True)
      .booted) (by decide)) (by decide)) trivial) trivial) (by decide)
  exact absurd (h _ _ _ rfl run 3 _ rfl) (by decide)

end Ral.Engine
