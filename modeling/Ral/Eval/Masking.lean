import Ral.Eval.Restore

/-! # A handler's frame lifted out and put back

The stack keeps its order under every operation on it. A frame lifted off by a lookup,
a body that balances what it pushes, and the frame put back leave the stack from before
with what the body changed for the session: aliases removed, aliases installed.
-/

namespace Ral.Eval

open Ral.Ir

namespace HandlerStack

def layered (base : List BuiltinEntry) (frames : List HandlerFrame) : HandlerStack :=
  frames.foldl (fun h frame => (h.pushFrame frame).2) ⟨[], base, 0⟩

def commitAlias (entry : HandlerEntry) (h : HandlerStack) : ℕ × HandlerStack :=
  (h.removeAlias entry.name).pushAlias [entry]

theorem ordered_over (base : List BuiltinEntry) (frames : List HandlerFrame) : (layered base frames).Ordered := by
  have general : ∀ h : HandlerStack, h.Ordered →
      (frames.foldl (fun h frame => (h.pushFrame frame).2) h).Ordered := by
    induction frames with
    | nil => exact fun _ o => o
    | cons frame frames ih => exact fun h o => ih _ (o.pushFrame frame)
  exact general _ ⟨.nil, fun _ hf => nomatch hf⟩

/-! ## Any interleaving -/

inductive StackOp
  | push (entries : List HandlerEntry) (catchAll : Option Value)
  | removeByHandle (handle : ℕ)
  | commitAlias (entry : HandlerEntry)
  | unalias (name : String)
  | strip (depth : ℕ)
  | restore (i : ℕ)

/-- The stack, and the frames lifted out of it. -/
structure Desk where
  stack : HandlerStack
  lifted : List Held

/-- The handle minted, if any, and what the operation leaves. -/
def StackOp.run (d : Desk) : StackOp → Option ℕ × Desk
  | push entries catchAll =>
    let (handle, stack) := d.stack.push entries catchAll
    (some handle, { d with stack })
  | removeByHandle handle => (none, { d with stack := d.stack.removeByHandle handle })
  | commitAlias entry =>
    let (handle, stack) := d.stack.commitAlias entry
    (some handle, { d with stack })
  | unalias name => (none, { d with stack := d.stack.removeAlias name })
  | strip depth =>
    match d.stack.stripMatched depth with
    | some (f, stack) => (none, ⟨stack, f :: d.lifted⟩)
    | none => (none, d)
  | restore i =>
    match d.lifted[i]? with
    | some f => (none, ⟨d.stack.restoreMatched f, d.lifted.eraseIdx i⟩)
    | none => (none, d)

def Desk.run (d : Desk) : List StackOp → List ℕ × Desk
  | [] => ([], d)
  | op :: ops =>
    let (minted, d) := op.run d
    let (handles, d) := d.run ops
    (minted.toList ++ handles, d)

/-- The stack is ordered, and every frame lifted out of it fits back. -/
structure Desk.Ordered (d : Desk) : Prop where
  stack : d.stack.Ordered
  lifted : ∀ f ∈ d.lifted, d.stack.Fits f
  apart : d.lifted.Pairwise fun f g => f.1 ≠ g.1

theorem Fits.of_sublist {f : Held} {h h' : HandlerStack} (fits : h.Fits f) (s : h'.frames.Sublist h.frames)
    (next : h.nextHandle ≤ h'.nextHandle) : h'.Fits f :=
  ⟨lt_of_lt_of_le fits.minted next, fun g hg => fits.absent g (s.subset hg)⟩

theorem Fits.pushFrame {f : Held} {h : HandlerStack} (fits : h.Fits f) (frame : HandlerFrame) :
    (h.pushFrame frame).2.Fits f where
  minted := Nat.lt_succ_of_lt fits.minted
  absent g hg := by
    rcases List.mem_append.mp hg with hg | hg
    · exact fits.absent g hg
    · rw [List.mem_singleton.mp hg]
      have := fits.minted
      show h.nextHandle ≠ f.1
      omega

theorem Fits.restoreMatched {f g : Held} {h : HandlerStack} (o : h.Ordered) (fits : h.Fits f) (apart : g.1 ≠ f.1) :
    (h.restoreMatched g).Fits f where
  minted := fits.minted
  absent k hk := by
    rw [o.frames_restoreMatched] at hk
    simp only [List.mem_append, List.mem_cons, List.mem_filter] at hk
    rcases hk with hk | rfl | hk
    · exact fits.absent k hk.1
    · exact apart
    · exact fits.absent k hk.1

/-- One operation keeps the desk ordered; a handle it mints is the next, which moves past it. -/
theorem Desk.Ordered.step {d : Desk} (o : d.Ordered) (op : StackOp) :
    (op.run d).2.Ordered ∧ d.stack.nextHandle ≤ (op.run d).2.stack.nextHandle ∧
      ∀ handle ∈ (op.run d).1, handle = d.stack.nextHandle ∧ handle < (op.run d).2.stack.nextHandle := by
  cases op with
  | push entries catchAll =>
    refine ⟨⟨o.stack.pushFrame _, fun f hf => (o.lifted f hf).pushFrame _, o.apart⟩, Nat.le_succ _, ?_⟩
    intro handle hh
    cases hh
    exact ⟨rfl, Nat.lt_succ_self _⟩
  | removeByHandle handle =>
    have hsub := without_sublist (fun f => f.1 = handle) d.stack.frames
    exact ⟨⟨o.stack.of_sublist hsub le_rfl, fun f hf => (o.lifted f hf).of_sublist hsub le_rfl, o.apart⟩,
      le_rfl, nofun⟩
  | commitAlias entry =>
    have hsub := without_sublist (fun f => f.2.isAliasFor entry.name) d.stack.frames
    have hremoved : (d.stack.removeAlias entry.name).Ordered := o.stack.of_sublist hsub le_rfl
    refine ⟨⟨hremoved.pushFrame _, fun f hf => ?_, o.apart⟩, Nat.le_succ _, ?_⟩
    · have hfits : (d.stack.removeAlias entry.name).Fits f := (o.lifted f hf).of_sublist hsub le_rfl
      exact hfits.pushFrame _
    · intro handle hh
      cases hh
      exact ⟨rfl, Nat.lt_succ_self _⟩
  | unalias name =>
    have hsub := without_sublist (fun f => f.2.isAliasFor name) d.stack.frames
    exact ⟨⟨o.stack.of_sublist hsub le_rfl, fun f hf => (o.lifted f hf).of_sublist hsub le_rfl, o.apart⟩,
      le_rfl, nofun⟩
  | strip depth =>
    cases hstrip : d.stack.stripMatched depth with
    | none =>
      simp only [StackOp.run, hstrip]
      exact ⟨o, le_rfl, nofun⟩
    | some matched =>
      obtain ⟨f, stack⟩ := matched
      obtain ⟨below, above, hframes, hleft, -, hnext⟩ := stripMatched_frames hstrip
      have hsub : stack.frames.Sublist d.stack.frames := by
        rw [hframes, hleft]
        exact (List.sublist_cons_self f above).append_left below
      have hin : f ∈ d.stack.frames := by simp [hframes]
      simp only [StackOp.run, hstrip]
      refine ⟨⟨o.stack.stripMatched hstrip, fun g hg => ?_, ?_⟩, le_of_eq hnext.symm, nofun⟩
      · rcases List.mem_cons.mp hg with rfl | hg
        · exact o.stack.fits_stripMatched hstrip
        · exact (o.lifted g hg).of_sublist hsub (le_of_eq hnext.symm)
      · exact List.pairwise_cons.mpr ⟨fun g hg => (o.lifted g hg).absent f hin, o.apart⟩
  | restore i =>
    cases hget : d.lifted[i]? with
    | none =>
      simp only [StackOp.run, hget]
      exact ⟨o, le_rfl, nofun⟩
    | some f =>
      have hmem := List.mem_of_getElem? hget
      simp only [StackOp.run, hget]
      refine ⟨⟨o.stack.restoreMatched (o.lifted f hmem), fun g hg => ?_,
        o.apart.sublist (List.eraseIdx_sublist _ _)⟩, le_rfl, nofun⟩
      obtain ⟨j, hne, hj⟩ := List.mem_eraseIdx_iff_getElem?.mp hg
      refine (o.lifted g (List.mem_of_getElem? hj)).restoreMatched o.stack ?_
      obtain ⟨hi, rfl⟩ := List.getElem?_eq_some_iff.mp hget
      obtain ⟨hj', rfl⟩ := List.getElem?_eq_some_iff.mp hj
      rcases Nat.lt_or_gt_of_ne hne with hlt | hlt
      · exact (List.pairwise_iff_getElem.mp o.apart j i hj' hi hlt).symm
      · exact List.pairwise_iff_getElem.mp o.apart i j hi hj' hlt

theorem Desk.Ordered.run {d : Desk} (o : d.Ordered) (ops : List StackOp) :
    (d.run ops).2.Ordered ∧ (d.run ops).1.Pairwise (· < ·) ∧ ∀ handle ∈ (d.run ops).1, d.stack.nextHandle ≤ handle := by
  induction ops generalizing d with
  | nil => exact ⟨o, .nil, nofun⟩
  | cons op ops ih =>
    obtain ⟨hstep, hnext, hminted⟩ := o.step op
    obtain ⟨hend, hascends, hlater⟩ := ih hstep
    refine ⟨hend, List.pairwise_append.mpr ⟨?_, hascends, ?_⟩, ?_⟩
    · cases (op.run d).1 <;> simp
    · intro x hx y hy
      have hlt := (hminted x (Option.mem_toList.mp hx)).2
      exact lt_of_lt_of_le hlt (hlater y hy)
    · intro handle hh
      rcases List.mem_append.mp hh with hx | hy
      · exact le_of_eq (hminted handle (Option.mem_toList.mp hx)).1.symm
      · exact le_trans hnext (hlater handle hy)

theorem Desk.ordered_over (base : List BuiltinEntry) (frames : List HandlerFrame) :
    (Desk.mk (layered base frames) []).Ordered := ⟨HandlerStack.ordered_over base frames, nofun, .nil⟩

/-! ## Bodies that balance what they push -/

/-- What a running body does to the stack: a scope takes its frame off when it ends, and a
handled command has its handler's frame put back. -/
inductive Body
  | done
  | commitAlias (entry : HandlerEntry) (rest : Body)
  | unalias (name : String) (rest : Body)
  | removeAliasFrame (handle : ℕ) (rest : Body)
  | within (entries : List HandlerEntry) (catchAll : Option Value) (body rest : Body)
  | command (name : String) (handler rest : Body)

/-- `none` is a panic: the depth a lookup returned names no frame. -/
def Body.run : Body → HandlerStack → Option HandlerStack
  | done, h => some h
  | commitAlias entry rest, h => rest.run (h.commitAlias entry).2
  | unalias name rest, h => rest.run (h.removeAlias name)
  | removeAliasFrame handle rest, h => rest.run (h.removeAliasFrame handle)
  | within entries catchAll body rest, h => do
      let (handle, h) := h.push entries catchAll
      let h ← body.run h
      rest.run (h.removeByHandle handle)
  | command name handler rest, h =>
    match h.lookup name with
    | some (.frame _ depth) => do
        let (f, h) ← h.stripMatched depth
        let h ← handler.run h
        rest.run (h.restoreMatched f)
    | _ => rest.run h

/-! ## Lookups -/

def Innermost {α : Type} (p : HandlerFrame → Option α) (h : HandlerStack) (a : α) (depth : ℕ) : Prop :=
  ∃ i f, depth = i + 1 ∧ h.frames.reverse[i]? = some f ∧ p f.2 = some a ∧
    ∀ j g, j < i → h.frames.reverse[j]? = some g → p g.2 = none

def HandlerFrame.arm (name : String) (f : HandlerFrame) : Option HandlerEntry :=
  f.entries.find? fun e => e.name = name

/-- Which code a command name runs. -/
inductive Finds (name : String) (h : HandlerStack) : Option HandlerLookup → Prop
  | arm {entry : HandlerEntry} {depth : ℕ} :
      Innermost (HandlerFrame.arm name) h entry depth → Finds name h (some (.frame entry depth))
  | base {entry : BuiltinEntry} : (∀ f ∈ h.frames, HandlerFrame.arm name f.2 = none) →
      h.base.find? (fun e => e.name = name) = some entry → Finds name h (some (.base entry))
  | catchAll {thunk : Value} {depth : ℕ} : (∀ f ∈ h.frames, HandlerFrame.arm name f.2 = none) →
      (∀ e ∈ h.base, e.name ≠ name) → Innermost HandlerFrame.catchAll h thunk depth →
      Finds name h (some (.frame ⟨name, .catchAll, thunk⟩ depth))
  | external : (∀ f ∈ h.frames, HandlerFrame.arm name f.2 = none) → (∀ e ∈ h.base, e.name ≠ name) →
      (∀ f ∈ h.frames, f.2.catchAll = none) → Finds name h none

theorem atDepth_eq_some {α : Type} {p : HandlerFrame → Option α} {frames : List Held} {start depth : ℕ} {a : α}
    (h : atDepth p frames start = some (a, depth)) :
    ∃ i f, depth = start + i + 1 ∧ frames[i]? = some f ∧ p f.2 = some a ∧
      ∀ j g, j < i → frames[j]? = some g → p g.2 = none := by
  induction frames generalizing start with
  | nil => cases h
  | cons x xs ih =>
    unfold atDepth at h
    cases hx : p x.2 with
    | some b =>
      simp only [hx, Option.some.injEq, Prod.mk.injEq] at h
      obtain ⟨rfl, rfl⟩ := h
      exact ⟨0, x, rfl, rfl, hx, fun j g hj => absurd hj (Nat.not_lt_zero j)⟩
    | none =>
      simp only [hx] at h
      obtain ⟨i, f, hdepth, hf, ha, hbefore⟩ := ih h
      refine ⟨i + 1, f, by omega, hf, ha, fun j g hj hg => ?_⟩
      cases j with
      | zero =>
        cases hg
        exact hx
      | succ j => exact hbefore j g (by omega) hg

theorem atDepth_eq_none {α : Type} {p : HandlerFrame → Option α} {frames : List Held} {start : ℕ}
    (h : atDepth p frames start = none) : ∀ f ∈ frames, p f.2 = none := by
  induction frames generalizing start with
  | nil => exact nofun
  | cons x xs ih =>
    unfold atDepth at h
    cases hx : p x.2 with
    | some b => simp [hx] at h
    | none =>
      simp only [hx] at h
      intro f hf
      rcases List.mem_cons.mp hf with rfl | hf
      · exact hx
      · exact ih h f hf

theorem finds_lookup (name : String) (h : HandlerStack) : Finds name h (h.lookup name) := by
  unfold lookup
  split
  · next entry depth harm =>
      obtain ⟨i, f, hdepth, hf, hentry, hbefore⟩ := atDepth_eq_some harm
      exact .arm ⟨i, f, by omega, hf, hentry, hbefore⟩
  · next harm =>
      have none : ∀ f ∈ h.frames, HandlerFrame.arm name f.2 = Option.none :=
        fun f hf => atDepth_eq_none harm f (List.mem_reverse.mpr hf)
      split
      · next entry hbase => exact .base none hbase
      · next hbase =>
          have absent : ∀ e ∈ h.base, e.name ≠ name := by
            intro e he
            simpa using List.find?_eq_none.mp hbase e he
          split
          · next thunk depth hcatch =>
              obtain ⟨i, f, hdepth, hf, hthunk, hbefore⟩ := atDepth_eq_some hcatch
              exact .catchAll none absent ⟨i, f, by omega, hf, hthunk, hbefore⟩
          · next hcatch =>
              exact .external none absent fun f hf => atDepth_eq_none hcatch f (List.mem_reverse.mpr hf)

theorem atDepth_of_innermost {α : Type} {p : HandlerFrame → Option α} {frames : List Held} {a : α} {i start : ℕ}
    {f : Held} (hf : frames[i]? = some f) (ha : p f.2 = some a)
    (before : ∀ j g, j < i → frames[j]? = some g → p g.2 = none) :
    atDepth p frames start = some (a, start + i + 1) := by
  induction frames generalizing i start with
  | nil => simp at hf
  | cons x xs ih =>
    cases i with
    | zero =>
      cases hf
      simp [atDepth, ha]
    | succ i =>
      have hx : p x.2 = none := before 0 x (Nat.succ_pos i) rfl
      have hrest := @ih i (start + 1) hf fun j g hj hg => before (j + 1) g (by omega) hg
      simp only [atDepth, hx, hrest, Option.some.injEq, Prod.mk.injEq, true_and]
      omega

theorem atDepth_of_none {α : Type} {p : HandlerFrame → Option α} {frames : List Held}
    (h : ∀ f ∈ frames, p f.2 = none) (start : ℕ) : atDepth p frames start = none := by
  induction frames generalizing start with
  | nil => rfl
  | cons x xs ih =>
    simp only [atDepth, h x List.mem_cons_self]
    exact ih (fun f hf => h f (List.mem_cons_of_mem _ hf)) _

/-- A lookup finds this and nothing else. -/
theorem lookup_eq_iff {name : String} {h : HandlerStack} {r : Option HandlerLookup} :
    h.lookup name = r ↔ Finds name h r := by
  constructor
  · rintro rfl
    exact finds_lookup name h
  · intro found
    have arms (absent : ∀ f ∈ h.frames, HandlerFrame.arm name f.2 = none) :
        atDepth (fun f => f.entries.find? fun e => e.name = name) h.frames.reverse 0 = none :=
      atDepth_of_none (p := HandlerFrame.arm name) (fun f hf => absent f (List.mem_reverse.mp hf)) 0
    have bases (absent : ∀ e ∈ h.base, e.name ≠ name) : h.base.find? (fun e => e.name = name) = none :=
      List.find?_eq_none.mpr fun e he => by simpa using absent e he
    unfold lookup
    cases found with
    | arm hin =>
      obtain ⟨i, f, rfl, hf, ha, before⟩ := hin
      have harm : atDepth (HandlerFrame.arm name) h.frames.reverse 0 = some (_, 0 + i + 1) :=
        atDepth_of_innermost hf ha before
      unfold HandlerFrame.arm at harm
      rw [harm, Nat.zero_add]
    | base absent hbase => rw [arms absent, hbase]
    | catchAll absent unbased hin =>
      obtain ⟨i, f, rfl, hf, ha, before⟩ := hin
      have hcatch : atDepth HandlerFrame.catchAll h.frames.reverse 0 = some (_, 0 + i + 1) :=
        atDepth_of_innermost hf ha before
      rw [arms absent, bases unbased]
      simp only [hcatch, Nat.zero_add]
    | external absent unbased uncaught =>
      have hcatch := atDepth_of_none (p := HandlerFrame.catchAll)
        (fun f hf => uncaught f (List.mem_reverse.mp hf)) 0
      rw [arms absent, bases unbased]
      simp only [hcatch]

theorem stripMatched_of_lookup {name : String} {h : HandlerStack} {entry : HandlerEntry} {depth : ℕ}
    (found : h.lookup name = some (.frame entry depth)) : ∃ f h', h.stripMatched depth = some (f, h') := by
  have inside {i : ℕ} {f : Held} (hf : h.frames.reverse[i]? = some f) :
      ∃ f h', h.stripMatched (i + 1) = some (f, h') := by
    have hi : i < h.frames.length := by
      have := (List.getElem?_eq_some_iff.mp hf).1
      rwa [List.length_reverse] at this
    have hget : h.frames[h.frames.length - (i + 1)]? = some h.frames[h.frames.length - (i + 1)] :=
      List.getElem?_eq_getElem (by omega)
    refine ⟨h.frames[h.frames.length - (i + 1)],
      { h with frames := h.frames.eraseIdx (h.frames.length - (i + 1)) }, ?_⟩
    simp only [stripMatched, hget]
  cases lookup_eq_iff.mp found with
  | arm hin =>
    obtain ⟨i, f, rfl, hf, -, -⟩ := hin
    exact inside hf
  | catchAll _ _ hin =>
    obtain ⟨i, f, rfl, hf, -, -⟩ := hin
    exact inside hf

/-! ## What a balanced body leaves -/

/-- A balanced body makes session-level changes only, and never panics. -/
theorem Body.run_later (b : Body) {h : HandlerStack} (o : h.Ordered) : ∃ h', b.run h = some h' ∧ h.Later h' := by
  induction b generalizing h with
  | done => exact ⟨h, rfl, Later.refl h⟩
  | commitAlias entry rest ih =>
    have step := (later_removeAlias entry.name h).trans (later_pushAlias [entry] _)
    obtain ⟨h', hrun, hlater⟩ := ih (step.ordered o)
    exact ⟨h', hrun, step.trans hlater⟩
  | unalias name rest ih =>
    have step := later_removeAlias name h
    obtain ⟨h', hrun, hlater⟩ := ih (step.ordered o)
    exact ⟨h', hrun, step.trans hlater⟩
  | removeAliasFrame handle rest ih =>
    have step := later_removeAliasFrame handle h
    obtain ⟨h', hrun, hlater⟩ := ih (step.ordered o)
    exact ⟨h', hrun, step.trans hlater⟩
  | within entries catchAll body rest ihBody ihRest =>
    have pushed : (h.push entries catchAll).2.Ordered := o.pushFrame _
    obtain ⟨h₂, hbody, hlater⟩ := ihBody pushed
    -- taking the frame off commutes with what the body changed
    have step := (o.later_removeByHandle_push entries catchAll).trans
      (hlater.removeByHandle pushed (h.push entries catchAll).1)
    obtain ⟨h', hrun, hrest⟩ := ihRest (step.ordered o)
    refine ⟨h', ?_, step.trans hrest⟩
    simp only [Body.run, hbody, Option.bind_eq_bind, Option.bind_some, hrun]
  | command name handler rest ihHandler ihRest =>
    cases hlookup : h.lookup name with
    | none =>
      obtain ⟨h', hrun, hlater⟩ := ihRest o
      exact ⟨h', by simp only [Body.run, hlookup, hrun], hlater⟩
    | some found =>
      cases found with
      | base entry =>
        obtain ⟨h', hrun, hlater⟩ := ihRest o
        exact ⟨h', by simp only [Body.run, hlookup, hrun], hlater⟩
      | frame entry depth =>
        obtain ⟨f, h₁, hstrip⟩ := stripMatched_of_lookup hlookup
        obtain ⟨h₂, hhandler, hlater⟩ := ihHandler (o.stripMatched hstrip)
        have step := (o.later_restoreMatched hstrip).trans
          (hlater.restoreMatched (o.stripMatched hstrip) (o.fits_stripMatched hstrip))
        obtain ⟨h', hrun, hrest⟩ := ihRest (step.ordered o)
        refine ⟨h', ?_, step.trans hrest⟩
        simp only [Body.run, hlookup, hstrip, hhandler, Option.bind_eq_bind, Option.bind_some, hrun]

def handles (h : HandlerStack) : List ℕ := h.frames.map Prod.fst

/-- `frames` with the changes that lead from one stack to another: those it lost are taken
out, those minted since are put on top. -/
def changed (before after : HandlerStack) (frames : List Held) : List Held :=
  (frames.filter fun g => g.1 ∉ before.handles ∨ g.1 ∈ after.handles) ++
    after.frames.filter fun g => before.nextHandle ≤ g.1

theorem Ordered.eq_of_handle {h : HandlerStack} (o : h.Ordered) {f g : Held} (hf : f ∈ h.frames)
    (hg : g ∈ h.frames) (heq : f.1 = g.1) : f = g := by
  obtain ⟨i, hi, rfl⟩ := List.mem_iff_getElem.mp hf
  obtain ⟨j, hj, rfl⟩ := List.mem_iff_getElem.mp hg
  rcases Nat.lt_trichotomy i j with hlt | rfl | hlt
  · have := List.pairwise_iff_getElem.mp o.ascending i j hi hj hlt
    omega
  · rfl
  · have := List.pairwise_iff_getElem.mp o.ascending j i hj hi hlt
    omega

theorem Later.mem_of_handle {h h' : HandlerStack} (l : h.Later h') (o : h.Ordered) {g : Held}
    (hg : g ∈ h.frames) : g ∈ h'.frames ↔ g.1 ∈ h'.handles := by
  constructor
  · exact fun hin => List.mem_map_of_mem hin
  · intro hhandle
    obtain ⟨k, hk, heq⟩ := List.mem_map.mp hhandle
    rcases l.minted k hk with old | new
    · rwa [← o.eq_of_handle old hg heq]
    · have := o.below g hg
      omega

theorem kind_of_ne {kind : FrameKind} (h : kind ≠ .within) : kind = .alias := by
  cases kind
  · exact absurd rfl h
  · rfl

theorem Later.aliases {h h' : HandlerStack} (l : h.Later h') (o : h.Ordered) :
    (∀ g ∈ h.frames, g.1 ∉ h'.handles → g.2.kind = .alias) ∧
      ∀ g ∈ h'.frames, h.nextHandle ≤ g.1 → g.2.kind = .alias := by
  constructor
  · intro g hg hgone
    by_cases hkind : g.2.kind = .within
    · have hin : g ∈ h'.frames.filter fun f => f.2.kind = .within := by
        rw [l.within]
        simpa [hkind] using hg
      exact absurd (List.mem_map_of_mem (List.mem_of_mem_filter hin)) hgone
    · exact kind_of_ne hkind
  · intro g hg hnew
    by_cases hkind : g.2.kind = .within
    · have hin : g ∈ h.frames.filter fun f => f.2.kind = .within := by
        rw [← l.within]
        simpa [hkind] using hg
      have := o.below g (List.mem_of_mem_filter hin)
      omega
    · exact kind_of_ne hkind

/-- A frame lifted off, changes made, the frame put back: the stack from before with the changes. -/
theorem Ordered.restoreMatched_changed {depth : ℕ} {h h₁ h₂ : HandlerStack} {f : Held} (o : h.Ordered)
    (strip : h.stripMatched depth = some (f, h₁)) (l : h₁.Later h₂) :
    (h₂.restoreMatched f).frames = changed h₁ h₂ h.frames := by
  have o₁ := o.stripMatched strip
  have fits := o.fits_stripMatched strip
  have o₂ := l.ordered o₁
  obtain ⟨below, above, hframes, hleft, -, hnext⟩ := stripMatched_frames strip
  have hmem (g : Held) : g ∈ h.frames ↔ g = f ∨ g ∈ h₁.frames := by
    rw [hframes, hleft]
    simp only [List.mem_append, List.mem_cons]
    tauto
  have hchanged : (changed h₁ h₂ h.frames).Pairwise fun f g => f.1 < g.1 := by
    refine List.pairwise_append.mpr
      ⟨o.ascending.sublist List.filter_sublist, o₂.ascending.sublist List.filter_sublist, fun g hg k hk => ?_⟩
    have hlt := o.below g (List.mem_of_mem_filter hg)
    have hle : h₁.nextHandle ≤ k.1 := by simpa using (List.mem_filter.mp hk).2
    omega
  have hrestored := (o₂.restoreMatched (fits.later l)).ascending
  have general {xs ys : List Held} (hx : xs.Pairwise fun f g => f.1 < g.1)
      (hy : ys.Pairwise fun f g => f.1 < g.1) (hsame : ∀ g, g ∈ xs ↔ g ∈ ys) : xs = ys := by
    have hanti : Std.Antisymm fun f g : Held => f.1 < g.1 := ⟨fun a b hab hba => by omega⟩
    have hirrefl : Std.Irrefl fun f g : Held => f.1 < g.1 := ⟨fun a => lt_irrefl a.1⟩
    exact hx.eq_of_mem_iff hy hsame
  refine general hrestored hchanged fun g => ?_
  rw [o₂.frames_restoreMatched]
  unfold changed
  simp only [List.mem_append, List.mem_cons, List.mem_filter, decide_eq_true_eq]
  constructor
  · intro hg
    have hcases : g = f ∨ g ∈ h₂.frames := by tauto
    rcases hcases with rfl | hg
    · have habsent : g.1 ∉ h₁.handles := by
        intro hin
        obtain ⟨k, hk, heq⟩ := List.mem_map.mp hin
        exact fits.absent k hk heq
      exact Or.inl ⟨(hmem g).mpr (Or.inl rfl), Or.inl habsent⟩
    · rcases l.minted g hg with old | new
      · exact Or.inl ⟨(hmem g).mpr (Or.inr old), Or.inr (List.mem_map_of_mem hg)⟩
      · exact Or.inr ⟨hg, new⟩
  · rintro (⟨hg, hkept⟩ | ⟨hg, -⟩)
    · rcases (hmem g).mp hg with rfl | hold
      · exact Or.inr (Or.inl rfl)
      · have hin : g ∈ h₂.frames := by
          rcases hkept with hout | hin
          · exact absurd (List.mem_map_of_mem hold) hout
          · exact (l.mem_of_handle o₁ hold).mpr hin
        by_cases hlt : g.1 < f.1 <;> simp [hin, hlt]
    · by_cases hlt : g.1 < f.1 <;> simp [hg, hlt]

/-- Over any interleaving the handles along the stack ascend and none is minted twice; a frame
lifted off, a balanced body and the frame put back leave the stack from before with the aliases
the body removed and installed; and a lookup finds the innermost arm of the name, else the base
entry, else the innermost catch-all. -/
theorem handler_stack_order (base : List BuiltinEntry) (frames : List HandlerFrame) (ops : List StackOp) :
    let d := ((Desk.mk (layered base frames) []).run ops).2
    let minted := ((Desk.mk (layered base frames) []).run ops).1
    (d.stack.frames.Pairwise (fun f g => f.1 < g.1) ∧ minted.Pairwise (· < ·) ∧
        ∀ handle ∈ minted, ∀ f ∈ (layered base frames).frames, f.1 < handle) ∧
      (∀ depth f h₁, d.stack.stripMatched depth = some (f, h₁) → ∀ body : Body, ∃ h₂, body.run h₁ = some h₂ ∧
        (h₂.restoreMatched f).frames = changed h₁ h₂ d.stack.frames ∧
        (h₂.restoreMatched f).base = d.stack.base ∧
        (∀ g ∈ h₁.frames, g.1 ∉ h₂.handles → g.2.kind = .alias) ∧
        ∀ g ∈ h₂.frames, h₁.nextHandle ≤ g.1 → g.2.kind = .alias) ∧
      ∀ name r, d.stack.lookup name = r ↔ Finds name d.stack r := by
  intro d minted
  have start := Desk.ordered_over base frames
  obtain ⟨hend, hascends, hlater⟩ := start.run ops
  refine ⟨⟨hend.stack.ascending, hascends, fun handle hh f hf => ?_⟩, fun depth f h₁ hstrip body => ?_,
    fun name r => lookup_eq_iff⟩
  · exact lt_of_lt_of_le (start.stack.below f hf) (hlater handle hh)
  · have o₁ := hend.stack.stripMatched hstrip
    obtain ⟨h₂, hrun, hchanges⟩ := body.run_later o₁
    obtain ⟨hgone, hnew⟩ := hchanges.aliases o₁
    obtain ⟨-, -, -, -, hbase, -⟩ := stripMatched_frames hstrip
    exact ⟨h₂, hrun, hend.stack.restoreMatched_changed hstrip hchanges, hchanges.base.trans hbase, hgone, hnew⟩

/-- An alias whose handler is running installs another: put back, it stands below the new one. -/
theorem handler_stack_order_alias :
    ∃ h₂, (Body.commitAlias ⟨"g", .unary, .unit⟩ .done).run ⟨[], [], 1⟩ = some h₂ ∧
      (h₂.restoreMatched (0, ⟨[⟨"f", .unary, .unit⟩], none, .alias⟩)).frames =
        changed ⟨[], [], 1⟩ h₂ [(0, ⟨[⟨"f", .unary, .unit⟩], none, .alias⟩)] := by
  have general := (handler_stack_order [] [⟨[⟨"f", .unary, .unit⟩], none, .alias⟩] []).2.1 1
    (0, ⟨[⟨"f", .unary, .unit⟩], none, .alias⟩) ⟨[], [], 1⟩ rfl (.commitAlias ⟨"g", .unary, .unit⟩ .done)
  obtain ⟨h₂, hrun, hframes, -⟩ := general
  exact ⟨h₂, hrun, hframes⟩

/-- The innermost frame that answers to `f` is the one with a catch-all, and the lookup passes it. -/
theorem lookup_passes_catch_all :
    (layered [] [⟨[⟨"f", .unary, .unit⟩], none, .alias⟩, ⟨[], some .unit, .within⟩]).lookup "f" =
        some (.frame ⟨"f", .unary, .unit⟩ 2) ∧
      (layered [] [⟨[⟨"f", .unary, .unit⟩], none, .alias⟩, ⟨[], some .unit, .within⟩]).frames.reverse[0]?.bind
        (fun f => f.2.catchAll) = some .unit := ⟨rfl, rfl⟩

end HandlerStack

end Ral.Eval
