import Ral.Eval.Form

/-! # The handler stack

One stack of frames for aliases and `within` handlers, outermost first, each beside
the handle the stack minted for it. A scoped frame comes off by its handle, an
alias by its name; the frame of a running handler is lifted out and put back.
-/

namespace Ral.Eval

open Ral.Ir

/-- How a handler is called, fixed by its surface form. -/
inductive HandlerArity
  | catchAll
  | unary
  deriving DecidableEq

structure HandlerEntry where
  name : String
  arity : HandlerArity
  thunk : Value

/-- What installed a frame: `unalias` removes only an alias. -/
inductive FrameKind
  | within
  | alias
  deriving DecidableEq

structure HandlerFrame where
  entries : List HandlerEntry
  catchAll : Option Value
  kind : FrameKind

def HandlerFrame.isAliasFor (name : String) (f : HandlerFrame) : Bool :=
  f.kind = .alias && (f.entries.head?.any fun e => e.name = name)

abbrev Held := ℕ × HandlerFrame

inductive HandlerLookup
  | frame (entry : HandlerEntry) (depth : ℕ)
  | base (entry : BuiltinEntry)

structure HandlerStack where
  frames : List Held
  base : List BuiltinEntry
  nextHandle : ℕ

namespace HandlerStack

def pushFrame (frame : HandlerFrame) (h : HandlerStack) : ℕ × HandlerStack :=
  (h.nextHandle,
    { h with frames := h.frames ++ [(h.nextHandle, frame)], nextHandle := h.nextHandle + 1 })

/-- A scoped `within` frame. -/
def push (entries : List HandlerEntry) (catchAll : Option Value) (h : HandlerStack) : ℕ × HandlerStack :=
  h.pushFrame ⟨entries, catchAll, .within⟩

def pushAlias (entries : List HandlerEntry) (h : HandlerStack) : ℕ × HandlerStack :=
  h.pushFrame ⟨entries, none, .alias⟩

def without (p : Held → Bool) (frames : List Held) : List Held := (frames.reverse.eraseP p).reverse

def removeByHandle (handle : ℕ) (h : HandlerStack) : HandlerStack :=
  { h with frames := without (fun f => f.1 = handle) h.frames }

def removeAlias (name : String) (h : HandlerStack) : HandlerStack :=
  { h with frames := without (fun f => f.2.isAliasFor name) h.frames }

/-- A handle an alias was installed under names no other frame. -/
def removeAliasFrame (handle : ℕ) (h : HandlerStack) : HandlerStack :=
  { h with frames := without (fun f => f.1 = handle && f.2.kind = .alias) h.frames }

def atDepth {α : Type} (f : HandlerFrame → Option α) : List Held → ℕ → Option (α × ℕ)
  | [], _ => none
  | x :: xs, depth =>
    match f x.2 with
    | some a => some (a, depth + 1)
    | none => atDepth f xs (depth + 1)

/-- A named entry at any depth beats a base frame, which beats a catch-all. -/
def lookup (name : String) (h : HandlerStack) : Option HandlerLookup :=
  match atDepth (fun f => f.entries.find? fun e => e.name = name) h.frames.reverse 0 with
  | some (entry, depth) => some (.frame entry depth)
  | none =>
    match h.base.find? fun e => e.name = name with
    | some entry => some (.base entry)
    | none =>
      match atDepth (fun f => f.catchAll) h.frames.reverse 0 with
      | some (thunk, depth) => some (.frame ⟨name, .catchAll, thunk⟩ depth)
      | none => none

/-- Lifts the frame at the depth a lookup returned off the stack; only it goes. -/
def stripMatched (depth : ℕ) (h : HandlerStack) : Option (Held × HandlerStack) :=
  match h.frames[h.frames.length - depth]? with
  | some f => some (f, { h with frames := h.frames.eraseIdx (h.frames.length - depth) })
  | none => none

def restoreMatched (f : Held) (h : HandlerStack) : HandlerStack :=
  let newer := (h.frames.reverse.takeWhile fun g => ¬ g.1 < f.1).reverse
  let older := (h.frames.reverse.dropWhile fun g => ¬ g.1 < f.1).reverse
  { h with frames := older ++ f :: newer }

/-! ## The order of the frames -/

/-- Handles ascend and are below the next one to be minted. -/
structure Ordered (h : HandlerStack) : Prop where
  ascending : h.frames.Pairwise fun f g => f.1 < g.1
  below : ∀ f ∈ h.frames, f.1 < h.nextHandle

theorem without_sublist (p : Held → Bool) (frames : List Held) : (without p frames).Sublist frames := by
  have h := (List.eraseP_sublist (p := p) (l := frames.reverse)).reverse
  rwa [List.reverse_reverse] at h

theorem Ordered.of_sublist {h h' : HandlerStack} (o : h.Ordered) (s : h'.frames.Sublist h.frames)
    (next : h.nextHandle ≤ h'.nextHandle) : h'.Ordered where
  ascending := o.ascending.sublist s
  below f hf := lt_of_lt_of_le (o.below f (s.subset hf)) next

theorem Ordered.pushFrame {h : HandlerStack} (o : h.Ordered) (frame : HandlerFrame) :
    (h.pushFrame frame).2.Ordered where
  ascending := by
    apply List.pairwise_append.mpr
    refine ⟨o.ascending, List.pairwise_singleton _ _, fun f hf g hg => ?_⟩
    rw [List.mem_singleton] at hg
    subst hg
    exact o.below f hf
  below f hf := by
    rcases List.mem_append.mp hf with hf | hf
    · have := o.below f hf
      show f.1 < h.nextHandle + 1
      omega
    · rw [List.mem_singleton] at hf
      subst hf
      exact Nat.lt_succ_self _

theorem eraseP_of_unique {α : Type} {p : α → Bool} {l : List α}
    (h : l.Pairwise fun a b => ¬ (p a ∧ p b)) : l.eraseP p = l.filter fun a => ¬ p a := by
  induction l with
  | nil => rfl
  | cons a l ih =>
    have hcons := List.pairwise_cons.mp h
    by_cases hp : p a
    · rw [List.eraseP_cons_of_pos hp, List.filter_cons_of_neg (by simp [hp])]
      symm
      rw [List.filter_eq_self]
      intro b hb
      have := hcons.1 b hb
      simp_all
    · rw [List.eraseP_cons_of_neg hp, List.filter_cons_of_pos (by simp [hp]), ih hcons.2]

theorem Ordered.frames_removeByHandle {h : HandlerStack} (o : h.Ordered) (handle : ℕ) :
    (h.removeByHandle handle).frames = h.frames.filter fun f => f.1 ≠ handle := by
  have distinct : h.frames.reverse.Pairwise fun f g => ¬ (decide (f.1 = handle) ∧ decide (g.1 = handle)) := by
    rw [List.pairwise_reverse]
    apply o.ascending.imp
    intro f g hlt
    simp only [decide_eq_true_eq]
    omega
  show (h.frames.reverse.eraseP fun f => f.1 = handle).reverse = _
  rw [eraseP_of_unique distinct, List.filter_reverse, List.reverse_reverse]
  apply List.filter_congr
  intro f _
  simp

theorem takeWhile_append_dropWhile_of_split {α : Type} {p : α → Bool} {l : List α}
    (h : l.Pairwise fun a b => p b → p a) :
    l.takeWhile p = l.filter p ∧ l.dropWhile p = l.filter fun a => ¬ p a := by
  induction l with
  | nil => exact ⟨rfl, rfl⟩
  | cons a l ih =>
    have hcons := List.pairwise_cons.mp h
    by_cases hp : p a
    · have := ih hcons.2
      simp [hp, this.1, this.2]
    · have none : ∀ b ∈ l, ¬ p b := fun b hb hpb => hp (hcons.1 b hb hpb)
      constructor
      · rw [List.takeWhile_cons_of_neg hp, List.filter_cons_of_neg hp]
        symm
        rw [List.filter_eq_nil_iff]
        exact none
      · rw [List.dropWhile_cons_of_neg hp, List.filter_cons_of_pos (by simp [hp])]
        congr 1
        symm
        rw [List.filter_eq_self]
        intro b hb
        simp [none b hb]

theorem Ordered.frames_restoreMatched {h : HandlerStack} (o : h.Ordered) (f : Held) :
    (h.restoreMatched f).frames =
      (h.frames.filter fun g => g.1 < f.1) ++ f :: h.frames.filter fun g => ¬ g.1 < f.1 := by
  have split : h.frames.reverse.Pairwise fun a b =>
      decide (¬ b.1 < f.1) → decide (¬ a.1 < f.1) := by
    rw [List.pairwise_reverse]
    apply o.ascending.imp
    intro a b hlt
    simp only [decide_eq_true_eq]
    omega
  have halves := takeWhile_append_dropWhile_of_split split
  show (h.frames.reverse.dropWhile _).reverse ++ f :: (h.frames.reverse.takeWhile _).reverse = _
  rw [halves.1, halves.2, List.filter_reverse, List.filter_reverse, List.reverse_reverse,
    List.reverse_reverse]
  congr 1
  apply List.filter_congr
  intro g _
  simp

/-! ## What aliases change -/

/-- Session-level change: the scoped frames stay. -/
structure Later (h h' : HandlerStack) : Prop where
  ordered : h.Ordered → h'.Ordered
  within : (h'.frames.filter fun f => f.2.kind = .within) = h.frames.filter fun f => f.2.kind = .within
  base : h'.base = h.base
  next : h.nextHandle ≤ h'.nextHandle
  /-- A frame that left does not come back. -/
  minted : ∀ f ∈ h'.frames, f ∈ h.frames ∨ h.nextHandle ≤ f.1

theorem Later.refl (h : HandlerStack) : h.Later h :=
  ⟨id, rfl, rfl, le_rfl, fun _ hf => Or.inl hf⟩

theorem Later.trans {h h' h'' : HandlerStack} (l : h.Later h') (l' : h'.Later h'') : h.Later h'' where
  ordered o := l'.ordered (l.ordered o)
  within := l'.within.trans l.within
  base := l'.base.trans l.base
  next := le_trans l.next l'.next
  minted f hf := by
    rcases l'.minted f hf with hf | hf
    · exact l.minted f hf
    · exact Or.inr (le_trans l.next hf)

theorem filter_without {p q : Held → Bool} (h : ∀ f, p f → ¬ q f) (frames : List Held) :
    (without p frames).filter q = frames.filter q := by
  have key : ∀ l : List Held, (l.eraseP p).filter q = l.filter q := by
    intro l
    induction l with
    | nil => rfl
    | cons f l ih =>
      by_cases hp : p f
      · rw [List.eraseP_cons_of_pos hp, List.filter_cons_of_neg (h f hp)]
      · rw [List.eraseP_cons_of_neg hp, List.filter_cons, List.filter_cons, ih]
  unfold without
  rw [List.filter_reverse, key, List.filter_reverse, List.reverse_reverse]

theorem later_without {p : Held → Bool} (aliases : ∀ f, p f → f.2.kind = .alias) (h : HandlerStack) :
    h.Later { h with frames := without p h.frames } where
  ordered o := o.of_sublist (without_sublist _ _) le_rfl
  within := by
    apply filter_without
    intro f hf
    simp [aliases f hf]
  base := rfl
  next := le_rfl
  minted _ hf := Or.inl ((without_sublist _ _).subset hf)

theorem later_removeAlias (name : String) (h : HandlerStack) : h.Later (h.removeAlias name) := by
  apply later_without
  intro f hf
  simp only [HandlerFrame.isAliasFor, Bool.and_eq_true, decide_eq_true_eq] at hf
  exact hf.1

theorem later_removeAliasFrame (handle : ℕ) (h : HandlerStack) : h.Later (h.removeAliasFrame handle) := by
  apply later_without
  intro f hf
  simp only [Bool.and_eq_true, decide_eq_true_eq] at hf
  exact hf.2

theorem later_pushAlias (entries : List HandlerEntry) (h : HandlerStack) :
    h.Later (h.pushAlias entries).2 where
  ordered o := o.pushFrame _
  within := by
    show (h.frames ++ [_]).filter _ = _
    rw [List.filter_append]
    simp
  base := rfl
  next := Nat.le_succ _
  minted f hf := by
    rcases List.mem_append.mp hf with hf | hf
    · exact Or.inl hf
    · rw [List.mem_singleton] at hf
      subst hf
      exact Or.inr le_rfl

end HandlerStack

end Ral.Eval
