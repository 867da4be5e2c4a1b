import Mathlib.Logic.Function.Iterate
import Mathlib.Order.MinMax

/-! # Union-find with bindings

A forest of slots over an unbounded supply of variables of which the first
`next` are allocated. A slot is free, bound to a value, linked to another slot,
or bound to a bare variable: such a slot stays the anchor of its class, and what
the class stands for is found further up. What a client reads is a partition
with one optional binding for each class, and the anchors; path compression is
invisible there.
-/

namespace Ral.UnionFind

/-! ## Chains -/

section Climb
variable {link link' : ℕ → Option ℕ} {a b v w m n : ℕ}

/-- One link up, or the end itself. -/
def climb (link : ℕ → Option ℕ) (v : ℕ) : ℕ := (link v).getD v

theorem climb_of_link (h : link v = some w) : climb link v = w := by
  simp [climb, h]

theorem iterate_climb_of_end (h : link v = none) (n : ℕ) : (climb link)^[n] v = v :=
  Function.iterate_fixed (by simp [climb, h]) n

/-- A chain that has reached its end stays there. -/
theorem iterate_climb_stable (h : link ((climb link)^[m] v) = none) (hmn : m ≤ n) :
    (climb link)^[n] v = (climb link)^[m] v := by
  obtain ⟨k, rfl⟩ := Nat.exists_eq_add_of_le' hmn
  rw [Function.iterate_add_apply, iterate_climb_of_end h]

theorem iterate_climb_unique (hm : link ((climb link)^[m] v) = none)
    (hn : link ((climb link)^[n] v) = none) : (climb link)^[m] v = (climb link)^[n] v := by
  rcases Nat.le_total m n with hmn | hnm
  · exact (iterate_climb_stable hm hmn).symm
  · exact iterate_climb_stable hn hnm

/-- Fewer links: a chain ends no later, on the way of the longer one. -/
theorem iterate_climb_of_le (hle : ∀ v p, link' v = some p → link v = some p)
    (h : link ((climb link)^[n] v) = none) :
    link' ((climb link')^[n] v) = none ∧ ∃ k ≤ n, (climb link')^[n] v = (climb link)^[k] v := by
  induction n generalizing v with
  | zero =>
    refine ⟨?_, 0, le_refl _, rfl⟩
    cases hv : link' v with
    | none => exact hv
    | some p => exact (hle v p hv).symm.trans h |>.symm ▸ hv
  | succ n ih =>
    cases hv : link' v with
    | none =>
      rw [iterate_climb_of_end hv]
      exact ⟨hv, 0, Nat.zero_le _, rfl⟩
    | some p =>
      have hp := hle v p hv
      rw [Function.iterate_succ_apply, climb_of_link hp] at h
      obtain ⟨he, k, hk, heq⟩ := ih h
      rw [Function.iterate_succ_apply, climb_of_link hv]
      refine ⟨he, k + 1, by omega, heq.trans ?_⟩
      rw [Function.iterate_succ_apply, climb_of_link hp]

/-- A link past some of its chain. -/
theorem iterate_climb_shortcut {k : ℕ} (h : link ((climb link)^[n] w) = none) :
    (climb (Function.update link v (some ((climb link)^[k + 1] v))))^[n] w = (climb link)^[n] w := by
  induction n generalizing w with
  | zero => rfl
  | succ n ih =>
    by_cases hw : w = v
    · subst hw
      have hfar : (climb link)^[n] ((climb link)^[k + 1] w) = (climb link)^[n + 1] w := by
        rw [← Function.iterate_add_apply]
        exact iterate_climb_stable h (by omega)
      rw [Function.iterate_succ_apply, climb_of_link (Function.update_self ..), ih (hfar ▸ h), hfar]
    · have hstep : climb (Function.update link v (some ((climb link)^[k + 1] v))) w = climb link w := by
        simp [climb, Function.update_of_ne hw]
      rw [Function.iterate_succ_apply, hstep, Function.iterate_succ_apply]
      exact ih h

/-- A chain cut short. -/
theorem iterate_climb_cut (h : link ((climb link)^[n] w) = none) :
    Function.update link v none ((climb (Function.update link v none))^[n] w) = none := by
  have hv : Function.update link v none v = none := Function.update_self ..
  induction n generalizing w with
  | zero =>
    by_cases hw : w = v
    · exact hw ▸ hv
    · exact (Function.update_of_ne hw ..).trans h
  | succ n ih =>
    by_cases hw : w = v
    · rw [hw, iterate_climb_of_end hv]
      exact hv
    · have hstep : climb (Function.update link v none) w = climb link w := by
        simp [climb, Function.update_of_ne hw]
      rw [Function.iterate_succ_apply, hstep]
      exact ih h

theorem climb_update_of_ne (h : w ≠ a) : climb (Function.update link a (some b)) w = climb link w := by
  simp [climb, Function.update_of_ne h]

/-- The end of a chain continued by another that does not come back. -/
theorem iterate_climb_extend (ha : link a = none) (hn : ∀ w, link ((climb link)^[n] w) = none)
    (hb : (climb link)^[n] b ≠ a) (w : ℕ) :
    (climb (Function.update link a (some b)))^[n + 1 + n] w =
      if (climb link)^[n] w = a then (climb link)^[n] b else (climb link)^[n] w := by
  have haway : ∀ n w, (climb link)^[n] w ≠ a →
      (climb (Function.update link a (some b)))^[n] w = (climb link)^[n] w := by
    intro n
    induction n with
    | zero => exact fun _ _ => rfl
    | succ n ih =>
      intro w hw
      have hne : w ≠ a := fun h => hw (h ▸ iterate_climb_of_end ha (n + 1))
      rw [Function.iterate_succ_apply, climb_update_of_ne hne]
      exact ih _ hw
  have honto : ∀ n w, (climb link)^[n] w = a →
      ∃ k ≤ n, (climb (Function.update link a (some b)))^[k] w = a := by
    intro n
    induction n with
    | zero => exact fun w hw => ⟨0, le_refl _, hw⟩
    | succ n ih =>
      intro w hw
      by_cases hne : w = a
      · exact ⟨0, Nat.zero_le _, hne⟩
      · obtain ⟨k, hk, he⟩ := ih (climb link w) hw
        refine ⟨k + 1, by omega, ?_⟩
        rw [Function.iterate_succ_apply, climb_update_of_ne hne]
        exact he
  have hend : ∀ w, (climb link)^[n] w ≠ a →
      Function.update link a (some b) ((climb (Function.update link a (some b)))^[n] w) = none := by
    intro w hw
    rw [haway n w hw, Function.update_of_ne hw]
    exact hn w
  split
  · next hw =>
      obtain ⟨k, hk, he⟩ := honto n w hw
      have hchain : (climb (Function.update link a (some b)))^[n + 1 + k] w =
          (climb (Function.update link a (some b)))^[n] b := by
        rw [Function.iterate_add_apply, he, Function.iterate_succ_apply,
          climb_of_link (Function.update_self ..)]
      rw [← haway n b hb, ← hchain]
      exact iterate_climb_stable (hchain ▸ hend b hb) (by omega)
  · next hw =>
      rw [← haway n w hw]
      exact iterate_climb_stable (hend w hw) (by omega)

end Climb

/-! ## Slots -/

inductive Slot (T : Type)
  | free
  | bound (value : T)
  /-- Bound to another variable, and still the anchor of its class. -/
  | bare (v : ℕ)
  | parent (v : ℕ)

namespace Slot
variable {T : Type}

/-- Where a slot leads. -/
def up : Slot T → Option ℕ
  | .parent v | .bare v => some v
  | .free | .bound _ => none

/-- Where a slot is linked. -/
def weld : Slot T → Option ℕ
  | .parent v => some v
  | .free | .bound _ | .bare _ => none

theorem up_of_weld {t : Slot T} {p : ℕ} (h : t.weld = some p) : t.up = some p := by
  cases t <;> first | exact h | cases h

end Slot

/-- `height` bounds every chain. -/
structure Slots (T : Type) where
  slot : ℕ → Slot T
  next : ℕ
  height : ℕ
  above : ∀ v, next ≤ v → slot v = .free
  inside : ∀ v p, (slot v).up = some p → p < next
  grounded : ∀ v, (slot ((climb fun v => (slot v).up)^[height] v)).up = none

namespace Slots

variable {T : Type} (s : Slots T)

def empty : Slots T where
  slot _ := .free
  next := 0
  height := 0
  above _ _ := rfl
  inside _ _ h := by cases h
  grounded _ := rfl

def up (v : ℕ) : Option ℕ := (s.slot v).up

def weld (v : ℕ) : Option ℕ := (s.slot v).weld

/-- The end of the chain of `v`. -/
def root (v : ℕ) : ℕ := (climb s.up)^[s.height] v

/-- The end of the links of `v`, short of bare variables. -/
def anchor (v : ℕ) : ℕ := (climb s.weld)^[s.height] v

/-- What the class of `v` is bound to. -/
def get (v : ℕ) : Option T :=
  match s.slot (s.root v) with
  | .bound t => some t
  | _ => none

theorem up_root (v : ℕ) : s.up (s.root v) = none := s.grounded v

theorem up_of_weld {v p : ℕ} (h : s.weld v = some p) : s.up v = some p := Slot.up_of_weld h

theorem weld_of_up {v : ℕ} (h : s.up v = none) : s.weld v = none := by
  cases hw : s.weld v with
  | none => rfl
  | some p => exact (s.up_of_weld hw).symm.trans h

theorem anchor_on_chain (v : ℕ) :
    s.weld (s.anchor v) = none ∧ ∃ k ≤ s.height, s.anchor v = (climb s.up)^[k] v :=
  iterate_climb_of_le (fun _ _ => s.up_of_weld) (s.grounded v)

theorem weld_anchor (v : ℕ) : s.weld (s.anchor v) = none := (s.anchor_on_chain v).1

theorem root_of_end {v : ℕ} (h : s.up v = none) : s.root v = v := iterate_climb_of_end h s.height

theorem anchor_of_end {v : ℕ} (h : s.weld v = none) : s.anchor v = v :=
  iterate_climb_of_end h s.height

theorem root_eq_of_iterate {v n : ℕ} (h : s.up ((climb s.up)^[n] v) = none) :
    (climb s.up)^[n] v = s.root v :=
  iterate_climb_unique h (s.up_root v)

theorem root_iterate (k v : ℕ) : s.root ((climb s.up)^[k] v) = s.root v := by
  have hk : (climb s.up)^[s.height + k] v = s.root ((climb s.up)^[k] v) := Function.iterate_add_apply ..
  rw [← hk]
  exact s.root_eq_of_iterate (hk ▸ s.up_root _)

@[simp] theorem root_root (v : ℕ) : s.root (s.root v) = s.root v := s.root_of_end (s.up_root v)

@[simp] theorem anchor_root (v : ℕ) : s.anchor (s.root v) = s.root v :=
  s.anchor_of_end (s.weld_of_up (s.up_root v))

@[simp] theorem anchor_anchor (v : ℕ) : s.anchor (s.anchor v) = s.anchor v :=
  s.anchor_of_end (s.weld_anchor v)

@[simp] theorem root_anchor (v : ℕ) : s.root (s.anchor v) = s.root v := by
  obtain ⟨-, k, -, he⟩ := s.anchor_on_chain v
  rw [he, root_iterate]

theorem anchor_of_weld {v p : ℕ} (h : s.weld v = some p) : s.anchor v = s.anchor p := by
  have hv : (climb s.weld)^[s.height + 1] v = s.anchor p := by
    rw [Function.iterate_succ_apply, climb_of_link h, anchor]
  rw [← hv]
  exact iterate_climb_unique (s.weld_anchor v) (hv ▸ s.weld_anchor p)

theorem up_of_root {v : ℕ} (h : s.root v = v) : s.up v = none := h ▸ s.up_root v

theorem up_of_above {v : ℕ} (h : s.next ≤ v) : s.up v = none := by
  rw [up, s.above v h]
  rfl

theorem iterate_lt {v : ℕ} (h : v < s.next) (n : ℕ) : (climb s.up)^[n] v < s.next := by
  induction n generalizing v with
  | zero => exact h
  | succ n ih =>
    rw [Function.iterate_succ_apply]
    refine ih ?_
    cases hv : s.up v with
    | none => simpa [climb, hv] using h
    | some p =>
      rw [climb_of_link hv]
      exact s.inside v p hv

theorem root_lt {v : ℕ} (h : v < s.next) : s.root v < s.next := s.iterate_lt h _

theorem anchor_lt {v : ℕ} (h : v < s.next) : s.anchor v < s.next := by
  obtain ⟨-, k, -, he⟩ := s.anchor_on_chain v
  rw [he]
  exact s.iterate_lt h k

@[simp] theorem get_root (v : ℕ) : s.get (s.root v) = s.get v := by
  simp [get]

/-! ## Operations -/

def fresh : ℕ × Slots T :=
  (s.next, { s with
    next := s.next + 1
    above := fun v h => s.above v (by omega)
    inside := fun v p h => Nat.lt_succ_of_lt (s.inside v p h) })

/-- Point `v` straight at the end of its links. -/
def repointSlot (v : ℕ) : ℕ → Slot T :=
  match s.slot v with
  | .parent _ => Function.update s.slot v (.parent (s.anchor v))
  | _ => s.slot

theorem repointSlot_of_parent {v p : ℕ} (h : s.slot v = .parent p) :
    s.repointSlot v = Function.update s.slot v (.parent (s.anchor v)) := by
  simp [repointSlot, h]

theorem repointSlot_of_anchor {v : ℕ} (h : ∀ p, s.slot v ≠ .parent p) : s.repointSlot v = s.slot := by
  unfold repointSlot
  split
  · next p hp => exact (h p hp).elim
  · rfl

theorem update_comp {α β : Type} (f : α → β) (g : ℕ → α) (v : ℕ) (t : α) :
    (fun w => f (Function.update g v t w)) = Function.update (fun w => f (g w)) v (f t) := by
  funext w
  by_cases h : w = v <;> simp [Function.update, h]

/-- Repointing changes no end, of chains or of links. -/
theorem iterate_repointSlot (v w : ℕ) :
    (climb fun w => (s.repointSlot v w).up)^[s.height] w = s.root w ∧
      (climb fun w => (s.repointSlot v w).weld)^[s.height] w = s.anchor w := by
  by_cases h : ∃ p, s.slot v = .parent p
  · obtain ⟨p, h⟩ := h
    have hup : s.up v = some p := by rw [up, h]; rfl
    have hweld : s.weld v = some p := by rw [weld, h]; rfl
    obtain ⟨-, k, -, hk⟩ := s.anchor_on_chain p
    have hchain : s.anchor v = (climb s.up)^[k + 1] v := by
      rw [s.anchor_of_weld hweld, hk, Function.iterate_succ_apply, climb_of_link hup]
    have hlinks : s.anchor v = (climb s.weld)^[s.height + 1] v := by
      rw [Function.iterate_succ_apply, climb_of_link hweld, ← anchor, s.anchor_of_weld hweld]
    rw [s.repointSlot_of_parent h, update_comp Slot.up, update_comp Slot.weld]
    constructor
    · show (climb (Function.update s.up v (some (s.anchor v))))^[s.height] w = _
      rw [hchain]
      exact iterate_climb_shortcut (s.up_root w)
    · show (climb (Function.update s.weld v (some (s.anchor v))))^[s.height] w = _
      rw [hlinks]
      exact iterate_climb_shortcut (s.weld_anchor w)
  · rw [s.repointSlot_of_anchor fun p hp => h ⟨p, hp⟩]
    exact ⟨rfl, rfl⟩

theorem repointSlot_of_end (v : ℕ) {w : ℕ} (h : s.up w = none) : s.repointSlot v w = s.slot w := by
  by_cases hv : ∃ p, s.slot v = .parent p
  · obtain ⟨p, hv⟩ := hv
    have hne : w ≠ v := by
      rintro rfl
      rw [up, hv] at h
      cases h
    rw [s.repointSlot_of_parent hv, Function.update_of_ne hne]
  · rw [s.repointSlot_of_anchor fun p hp => hv ⟨p, hp⟩]

def repoint (v : ℕ) : Slots T where
  slot := s.repointSlot v
  next := s.next
  height := s.height
  above w h := (s.repointSlot_of_end v (s.up_of_above h)).trans (s.above w h)
  inside w p h := by
    by_cases hv : ∃ q, s.slot v = .parent q
    · obtain ⟨q, hv⟩ := hv
      rw [s.repointSlot_of_parent hv] at h
      by_cases hw : w = v
      · subst hw
        rw [Function.update_self] at h
        cases h
        have hq : s.weld w = some q := by rw [weld, hv]; rfl
        rw [s.anchor_of_weld hq]
        exact s.anchor_lt (s.inside w q (s.up_of_weld hq))
      · rw [Function.update_of_ne hw] at h
        exact s.inside w p h
    · rw [s.repointSlot_of_anchor fun q hq => hv ⟨q, hq⟩] at h
      exact s.inside w p h
  grounded w := by
    rw [(s.iterate_repointSlot v w).1, s.repointSlot_of_end v (s.up_root w)]
    exact s.up_root w

/-- The end of the links of `v`, every slot on the way repointed to it. -/
def findPath : ℕ → Slots T → ℕ → ℕ × Slots T
  | 0, s, v => (v, s)
  | n + 1, s, v =>
    match s.slot v with
    | .parent p =>
      let (r, s) := findPath n s p
      (r, s.repoint v)
    | _ => (v, s)

def find (v : ℕ) : ℕ × Slots T := findPath s.height s v

/-- Overwrite the slot of `v`. -/
def bind (v : ℕ) (t : T) : Slots T where
  slot := Function.update s.slot v (.bound t)
  next := max s.next (v + 1)
  height := s.height
  above w h := by
    have hw : w ≠ v := by omega
    rw [Function.update_of_ne hw]
    exact s.above w (by omega)
  inside w p h := by
    by_cases hw : w = v
    · subst hw
      rw [Function.update_self] at h
      cases h
    · rw [Function.update_of_ne hw] at h
      have hp := s.inside w p h
      omega
  grounded w := by
    show (fun w => (Function.update s.slot v (.bound t) w).up) _ = none
    rw [update_comp]
    exact iterate_climb_cut (s.up_root w)

/-- Continue the end `a` of a chain by that of `b`. -/
def extend (a b : ℕ) (t : Slot T) (ht : t.up = some b) (ha : s.up a = none) (hb : s.root b ≠ a) :
    Slots T where
  slot := Function.update s.slot a t
  next := max s.next (max a b + 1)
  height := s.height + 1 + s.height
  above w h := by
    have hw : w ≠ a := by omega
    rw [Function.update_of_ne hw]
    exact s.above w (by omega)
  inside w p h := by
    by_cases hw : w = a
    · subst hw
      rw [Function.update_self, ht] at h
      cases h
      omega
    · rw [Function.update_of_ne hw] at h
      have hp := s.inside w p h
      omega
  grounded w := by
    show (fun w => (Function.update s.slot a t w).up) _ = none
    rw [update_comp, ht]
    show Function.update s.up a (some b) ((climb (Function.update s.up a (some b)))^[_] w) = none
    rw [iterate_climb_extend ha s.up_root hb w]
    split
    · exact (Function.update_of_ne hb ..).trans (s.up_root b)
    · next hw => exact (Function.update_of_ne hw ..).trans (s.up_root w)

/-- Merge the classes of `a` and `b` under the end of `b`. -/
def unite (a b : ℕ) : Slots T :=
  if h : s.root a = s.root b then s
  else s.extend (s.root a) (s.root b) (.parent (s.root b)) rfl (s.up_root a)
    (by rw [root_root]; exact fun he => h he.symm)

/-- Bind the end `v` of a chain to the variable `w`, unless that leads to `v`. -/
def bindBare (v w : ℕ) : Slots T :=
  if h : s.up v = none ∧ s.root w ≠ v then s.extend v w (.bare w) rfl h.1 h.2 else s

/-! ## What the operations do to roots, anchors and bindings -/

section Laws
variable {s}

theorem root_repoint (v w : ℕ) : (s.repoint v).root w = s.root w := (s.iterate_repointSlot v w).1

theorem anchor_repoint (v w : ℕ) : (s.repoint v).anchor w = s.anchor w :=
  (s.iterate_repointSlot v w).2

theorem get_repoint (v w : ℕ) : (s.repoint v).get w = s.get w := by
  have hslot : (s.repoint v).slot (s.root w) = s.slot (s.root w) :=
    s.repointSlot_of_end v (s.up_root w)
  simp only [get, root_repoint, hslot]

/-- What a client reads of two forests is the same. -/
structure Same (s s' : Slots T) : Prop where
  root : ∀ w, s'.root w = s.root w
  anchor : ∀ w, s'.anchor w = s.anchor w
  get : ∀ w, s'.get w = s.get w
  next : s'.next = s.next

theorem findPath_spec (n v : ℕ) (h : s.weld ((climb s.weld)^[n] v) = none) :
    (findPath n s v).1 = s.anchor v ∧ Same s (findPath n s v).2 := by
  induction n generalizing v with
  | zero => exact ⟨(s.anchor_of_end h).symm, fun _ => rfl, fun _ => rfl, fun _ => rfl, rfl⟩
  | succ n ih =>
    have hstays : s.weld v = none → s.anchor v = v := s.anchor_of_end
    cases hv : s.slot v with
    | free =>
      simp only [findPath, hv]
      exact ⟨(hstays (by rw [weld, hv]; rfl)).symm, fun _ => rfl, fun _ => rfl, fun _ => rfl, rfl⟩
    | bound t =>
      simp only [findPath, hv]
      exact ⟨(hstays (by rw [weld, hv]; rfl)).symm, fun _ => rfl, fun _ => rfl, fun _ => rfl, rfl⟩
    | bare w =>
      simp only [findPath, hv]
      exact ⟨(hstays (by rw [weld, hv]; rfl)).symm, fun _ => rfl, fun _ => rfl, fun _ => rfl, rfl⟩
    | parent p =>
      have hw : s.weld v = some p := by rw [weld, hv]; rfl
      rw [Function.iterate_succ_apply, climb_of_link hw] at h
      obtain ⟨hfst, hsame⟩ := ih p h
      simp only [findPath, hv]
      refine ⟨hfst.trans (s.anchor_of_weld hw).symm, fun w => ?_, fun w => ?_, fun w => ?_, hsame.next⟩
      · rw [root_repoint, hsame.root]
      · rw [anchor_repoint, hsame.anchor]
      · rw [get_repoint, hsame.get]

theorem up_bind {v : ℕ} (hv : s.up v = none) (t : T) :
    (s.bind v t).up = s.up ∧ (s.bind v t).weld = s.weld := by
  constructor
  · refine (update_comp Slot.up s.slot v (.bound t)).trans ?_
    exact (congrArg (Function.update s.up v) hv.symm).trans (Function.update_eq_self ..)
  · refine (update_comp Slot.weld s.slot v (.bound t)).trans ?_
    exact (congrArg (Function.update s.weld v) (s.weld_of_up hv).symm).trans (Function.update_eq_self ..)

theorem root_bind {v : ℕ} (hv : s.up v = none) (t : T) (w : ℕ) :
    (s.bind v t).root w = s.root w := by
  rw [root, (up_bind hv t).1]
  rfl

theorem anchor_bind {v : ℕ} (hv : s.up v = none) (t : T) (w : ℕ) :
    (s.bind v t).anchor w = s.anchor w := by
  rw [anchor, (up_bind hv t).2]
  rfl

theorem get_bind {v : ℕ} (hv : s.up v = none) (t : T) (w : ℕ) :
    (s.bind v t).get w = if s.root w = v then some t else s.get w := by
  rw [get, root_bind hv]
  by_cases hw : s.root w = v
  · simp [hw, bind]
  · simp [hw, bind, get]

section Extend
variable {a b : ℕ} {t : Slot T} (ht : t.up = some b) (ha : s.up a = none) (hb : s.root b ≠ a)

theorem root_extend (w : ℕ) : (s.extend a b t ht ha hb).root w =
    if s.root w = a then s.root b else s.root w := by
  show (climb fun w => (Function.update s.slot a t w).up)^[s.height + 1 + s.height] w = _
  rw [update_comp, ht]
  exact iterate_climb_extend ha s.up_root hb w

theorem get_extend (w : ℕ) : (s.extend a b t ht ha hb).get w =
    if s.root w = a then s.get b else s.get w := by
  have hslot : ∀ r, r ≠ a → (s.extend a b t ht ha hb).slot r = s.slot r := fun r hr =>
    Function.update_of_ne hr ..
  by_cases hw : s.root w = a
  · rw [get, root_extend, if_pos hw, if_pos hw, hslot _ hb, get]
  · rw [get, root_extend, if_neg hw, if_neg hw, hslot _ hw, get]

end Extend

end Laws

end Slots

/-! ## The partition a forest stands for -/

/-- A partition of the variables by representatives, one optional binding for
each class, and an anchor for each part of a class that is linked together. -/
@[ext] structure Classes (T : Type) where
  root : ℕ → ℕ
  anchor : ℕ → ℕ
  get : ℕ → Option T
  next : ℕ
  root_root : ∀ v, root (root v) = root v
  anchor_anchor : ∀ v, anchor (anchor v) = anchor v
  anchor_root : ∀ v, anchor (root v) = root v
  root_anchor : ∀ v, root (anchor v) = root v
  get_root : ∀ v, get (root v) = get v
  root_lt : ∀ v, v < next → root v < next
  anchor_lt : ∀ v, v < next → anchor v < next
  above : ∀ v, next ≤ v → root v = v ∧ get v = none

attribute [simp] Classes.root_root Classes.anchor_anchor Classes.anchor_root Classes.root_anchor
  Classes.get_root

namespace Classes

variable {T : Type} (c : Classes T)

theorem anchor_of_root {v : ℕ} (h : c.root v = v) : c.anchor v = v := by
  rw [← h, c.anchor_root]

theorem root_of_anchor_eq {a b : ℕ} (h : c.anchor a = c.anchor b) : c.root a = c.root b := by
  rw [← c.root_anchor a, h, c.root_anchor]

def fresh : Classes T :=
  { c with
    next := c.next + 1
    root_lt := fun v hv => by
      by_cases h : v < c.next
      · exact Nat.lt_succ_of_lt (c.root_lt v h)
      · have hr := (c.above v (by omega)).1
        omega
    anchor_lt := fun v hv => by
      by_cases h : v < c.next
      · exact Nat.lt_succ_of_lt (c.anchor_lt v h)
      · have hr := c.anchor_of_root (c.above v (by omega)).1
        omega
    above := fun v hv => c.above v (by omega) }

/-- Bind the class of `v`. -/
def bind (v : ℕ) (t : T) : Classes T where
  root := c.root
  anchor := c.anchor
  get w := if c.root w = c.root v then some t else c.get w
  next := max c.next (v + 1)
  root_root := c.root_root
  anchor_anchor := c.anchor_anchor
  anchor_root := c.anchor_root
  root_anchor := c.root_anchor
  get_root w := by simp
  root_lt w hw := by
    by_cases h : w < c.next
    · exact lt_of_lt_of_le (c.root_lt w h) (le_max_left _ _)
    · rw [(c.above w (by omega)).1]
      exact hw
  anchor_lt w hw := by
    by_cases h : w < c.next
    · exact lt_of_lt_of_le (c.anchor_lt w h) (le_max_left _ _)
    · rw [c.anchor_of_root (c.above w (by omega)).1]
      exact hw
  above w hw := by
    have hr := c.above w (by omega)
    have hne : c.root w ≠ c.root v := by
      rw [hr.1]
      by_cases h : v < c.next
      · have hlt := c.root_lt v h
        omega
      · rw [(c.above v (by omega)).1]
        omega
    exact ⟨hr.1, by simp [hne, hr.2]⟩

/-! ## Classes merged -/

section Merge
variable (a b : ℕ)

/-- The class of `a` goes where that of `b` is. -/
def merged (w : ℕ) : ℕ := if c.root w = c.root a then c.root b else c.root w

def mergedNext : ℕ := if c.root a = c.root b then c.next else max c.next (max (c.root a) (c.root b) + 1)

theorem root_merged (w : ℕ) : c.root (c.merged a b w) = c.merged a b w := by
  unfold merged
  split <;> simp

theorem merged_root (w : ℕ) : c.merged a b (c.root w) = c.merged a b w := by simp [merged]

theorem merged_of_root {w : ℕ} (h : c.root w = w) : c.merged a b w = if w = c.root a then c.root b else w := by
  rw [merged, h]

theorem merged_merged (w : ℕ) : c.merged a b (c.merged a b w) = c.merged a b w := by
  rw [c.merged_of_root a b (c.root_merged a b w)]
  split
  · next h =>
      unfold merged at h ⊢
      split
      · rfl
      · next hw =>
          rw [if_neg hw] at h
          exact (hw h).elim
  · rfl

theorem merged_of_eq (h : c.root a = c.root b) (w : ℕ) : c.merged a b w = c.root w := by
  unfold merged
  split
  · next hw => rw [← h, hw]
  · rfl

theorem merged_lt {w : ℕ} (hw : w < c.mergedNext a b) : c.merged a b w < c.mergedNext a b := by
  unfold mergedNext at hw ⊢
  by_cases hab : c.root a = c.root b
  · rw [if_pos hab] at hw ⊢
    rw [c.merged_of_eq a b hab]
    exact c.root_lt w hw
  · rw [if_neg hab] at hw ⊢
    unfold merged
    split
    · omega
    · by_cases hn : w < c.next
      · exact lt_of_lt_of_le (c.root_lt w hn) (le_max_left _ _)
      · rw [(c.above w (by omega)).1]
        exact hw

def mergedGet (w : ℕ) : Option T := if c.root w = c.root a then c.get b else c.get w

theorem mergedGet_merged (w : ℕ) : c.mergedGet a b (c.merged a b w) = c.mergedGet a b w := by
  unfold mergedGet merged
  by_cases h : c.root w = c.root a <;> by_cases hab : c.root b = c.root a <;> simp [h, hab]

theorem merged_above {w : ℕ} (hw : c.mergedNext a b ≤ w) : c.merged a b w = w ∧ c.mergedGet a b w = none := by
  unfold mergedNext at hw
  by_cases hab : c.root a = c.root b
  · rw [if_pos hab] at hw
    have hr := c.above w hw
    refine ⟨(c.merged_of_eq a b hab w).trans hr.1, ?_⟩
    unfold mergedGet
    split
    · next h => rw [← c.get_root b, ← hab, ← h, c.get_root, hr.2]
    · exact hr.2
  · rw [if_neg hab] at hw
    have hr := c.above w (by omega)
    have hne : c.root w ≠ c.root a := by
      rw [hr.1]
      omega
    exact ⟨(if_neg hne).trans hr.1, (if_neg hne).trans hr.2⟩

theorem next_le_mergedNext : c.next ≤ c.mergedNext a b := by
  unfold mergedNext
  split
  · exact le_refl _
  · exact le_max_left _ _

/-- Merge the class of `a` into that of `b`, whose binding it takes. -/
def unite : Classes T where
  root := c.merged a b
  anchor w := if c.anchor w = c.root a then c.root b else c.anchor w
  get := c.mergedGet a b
  next := c.mergedNext a b
  root_root := c.merged_merged a b
  anchor_anchor w := by
    by_cases h : c.anchor w = c.root a <;> simp [h]
  anchor_root w := by
    rw [c.anchor_of_root (c.root_merged a b w), ← c.merged_of_root a b (c.root_merged a b w), c.merged_merged]
  root_anchor w := by
    by_cases h : c.anchor w = c.root a
    · have hw : c.root w = c.root a := by rw [← c.root_anchor, h, c.root_root]
      rw [if_pos h, c.merged_of_root a b (c.root_root b), merged, if_pos hw, ite_id]
    · rw [if_neg h, ← c.merged_root, c.root_anchor, c.merged_root]
  get_root := c.mergedGet_merged a b
  root_lt _ := c.merged_lt a b
  anchor_lt w hw := by
    by_cases h : c.anchor w = c.root a
    · rw [if_pos h]
      have hb := c.merged_lt a b hw
      have hr : c.root w = c.root a := by rw [← c.root_anchor, h, c.root_root]
      rwa [merged, if_pos hr] at hb
    · rw [if_neg h]
      by_cases hn : w < c.next
      · exact lt_of_lt_of_le (c.anchor_lt w hn) (c.next_le_mergedNext a b)
      · rwa [c.anchor_of_root (c.above w (by omega)).1]
  above _ := c.merged_above a b

/-- The class of `a` stands for what that of `b` does, under anchors of its own. -/
def bindBare : Classes T :=
  { c.unite a b with
    anchor := c.anchor
    anchor_anchor := c.anchor_anchor
    anchor_root := fun w => c.anchor_of_root (c.root_merged a b w)
    root_anchor := fun w => by
      show c.merged a b (c.anchor w) = c.merged a b w
      rw [← c.merged_root, c.root_anchor, c.merged_root]
    anchor_lt := fun w hw => by
      by_cases hn : w < c.next
      · exact lt_of_lt_of_le (c.anchor_lt w hn) (c.next_le_mergedNext a b)
      · rwa [c.anchor_of_root (c.above w (by omega)).1] }

end Merge

@[simp] theorem root_unite (a b w : ℕ) :
    (c.unite a b).root w = if c.root w = c.root a then c.root b else c.root w := rfl

theorem get_unite (a b w : ℕ) :
    (c.unite a b).get w = if c.root w = c.root a then c.get b else c.get w := rfl

@[simp] theorem root_bind (v w : ℕ) (t : T) : (c.bind v t).root w = c.root w := rfl

theorem get_bind (v w : ℕ) (t : T) :
    (c.bind v t).get w = if c.root w = c.root v then some t else c.get w := rfl

theorem bind_root (v : ℕ) (t : T) : c.bind (c.root v) t = c.bind v t := by
  refine Classes.ext rfl rfl (funext fun w => ?_) ?_
  · simp [get_bind]
  · show max c.next (c.root v + 1) = max c.next (v + 1)
    by_cases h : v < c.next
    · have hlt := c.root_lt v h
      omega
    · rw [(c.above v (by omega)).1]

theorem get_of_root_eq {a b : ℕ} (h : c.root a = c.root b) : c.get a = c.get b := by
  rw [← c.get_root a, h, c.get_root]

theorem unite_of_root_eq {a b : ℕ} (h : c.root a = c.root b) : c.unite a b = c := by
  refine Classes.ext (funext (c.merged_of_eq a b h)) (funext fun w => ?_) (funext fun w => ?_) (if_pos h)
  · show (if c.anchor w = c.root a then c.root b else c.anchor w) = _
    split
    · next hw => rw [hw, h]
    · rfl
  · rw [get_unite]
    split
    · next hw => exact c.get_of_root_eq (h.symm.trans hw.symm)
    · rfl

end Classes

namespace Slots

variable {T : Type} (s : Slots T)

/-- What a client reads of a forest. -/
def classes : Classes T where
  root := s.root
  anchor := s.anchor
  get := s.get
  next := s.next
  root_root := s.root_root
  anchor_anchor := s.anchor_anchor
  anchor_root := s.anchor_root
  root_anchor := s.root_anchor
  get_root := s.get_root
  root_lt _ := s.root_lt
  anchor_lt _ := s.anchor_lt
  above v hv := by
    have hr := s.root_of_end (s.up_of_above hv)
    exact ⟨hr, by simp [get, hr, s.above v hv]⟩

theorem find_fst (v : ℕ) : (s.find v).1 = s.anchor v := (findPath_spec _ v (s.weld_anchor v)).1

/-- Path compression is invisible. -/
theorem classes_find (v : ℕ) : (s.find v).2.classes = s.classes := by
  obtain ⟨-, hsame⟩ := findPath_spec _ v (s.weld_anchor v)
  exact Classes.ext (funext hsame.root) (funext hsame.anchor) (funext hsame.get) hsame.next

theorem classes_bind {v : ℕ} (hv : s.root v = v) (t : T) :
    (s.bind v t).classes = s.classes.bind v t := by
  have hup := s.up_of_root hv
  refine Classes.ext (funext (root_bind hup t)) (funext (anchor_bind hup t)) (funext fun w => ?_) rfl
  refine (get_bind hup t w).trans ?_
  show _ = if s.root w = s.root v then some t else s.get w
  rw [hv]

theorem classes_unite (a b : ℕ) : (s.unite a b).classes = s.classes.unite a b := by
  by_cases hab : s.root a = s.root b
  · rw [unite, dif_pos hab]
    exact (s.classes.unite_of_root_eq hab).symm
  · rw [unite, dif_neg hab]
    have hend : s.root (s.root b) ≠ s.root a := by
      rw [root_root]
      exact fun he => hab he.symm
    refine Classes.ext (funext fun w => ?_) (funext fun w => ?_) (funext fun w => ?_) (if_neg hab).symm
    · refine (root_extend _ _ hend w).trans ?_
      rw [root_root]
      rfl
    · have hlinks := s.weld_of_up (s.up_root a)
      show (climb fun w => (Function.update s.slot (s.root a) (.parent (s.root b)) w).weld)^[_] w = _
      rw [update_comp]
      refine (iterate_climb_extend hlinks s.weld_anchor (?_ : s.anchor (s.root b) ≠ _) w).trans ?_
      · rw [anchor_root]
        exact fun he => hab he.symm
      · show (if s.anchor w = s.root a then s.anchor (s.root b) else s.anchor w) = _
        rw [anchor_root]
        rfl
    · refine (get_extend _ _ hend w).trans ?_
      rw [get_root]
      rfl

theorem classes_bindBare {v : ℕ} (hv : s.root v = v) (w : ℕ) :
    (s.bindBare v w).classes = s.classes.bindBare v w := by
  by_cases h : s.root w = v
  · have hr : s.root v = s.root w := hv.trans h.symm
    rw [bindBare, dif_neg fun hn => hn.2 h]
    have hc := s.classes.unite_of_root_eq hr
    refine Classes.ext ?_ rfl ?_ ?_
    · exact (congrArg Classes.root hc).symm
    · exact (congrArg Classes.get hc).symm
    · exact (congrArg Classes.next hc).symm
  · rw [bindBare, dif_pos ⟨s.up_of_root hv, h⟩]
    refine Classes.ext (funext fun x => ?_) (funext fun x => ?_) (funext fun x => ?_) ?_
    · refine (root_extend _ _ h x).trans ?_
      show _ = if s.root x = s.root v then s.root w else s.root x
      rw [hv]
    · show (climb fun x => (Function.update s.slot v (.bare w) x).weld)^[_] x = _
      rw [update_comp]
      have hsame : Function.update (fun x => (s.slot x).weld) v (Slot.bare w : Slot T).weld = s.weld :=
        (congrArg (Function.update s.weld v) (s.weld_of_up (s.up_of_root hv)).symm).trans
          (Function.update_eq_self ..)
      rw [hsame]
      have hend : s.weld ((climb s.weld)^[s.height] x) = none := s.weld_anchor x
      have hle : s.height ≤ s.height + 1 + s.height := by omega
      exact iterate_climb_stable hend hle
    · refine (get_extend _ _ h x).trans ?_
      show _ = if s.root x = s.root v then s.get w else s.get x
      rw [hv]
    · have hne : s.root v ≠ s.root w := fun he => h (he.symm.trans hv)
      show max s.next (max v w + 1) = if s.root v = s.root w then _ else max s.next (max (s.root v) (s.root w) + 1)
      rw [if_neg hne, hv]
      by_cases hw : w < s.next
      · have hlt := s.root_lt hw
        omega
      · rw [s.root_of_end (s.up_of_above (by omega))]

/-! ## Forests without bare variables -/

/-- No root stands for another. -/
def Plain : Prop := ∀ v, s.anchor v = s.root v

variable {s}

theorem Plain.of_classes {s' : Slots T} (h : s.Plain) (hc : s'.classes = s.classes) : s'.Plain := by
  intro v
  have ha : s'.anchor v = s.anchor v := congrFun (congrArg Classes.anchor hc) v
  have hr : s'.root v = s.root v := congrFun (congrArg Classes.root hc) v
  rw [ha, hr, h]

theorem Plain.find (h : s.Plain) (v : ℕ) : (s.find v).2.Plain := h.of_classes (s.classes_find v)

/-- What is found is bound. -/
theorem Plain.bind_find (h : s.Plain) (v : ℕ) (t : T) : ((s.find v).2.bind (s.find v).1 t).Plain := by
  have hend : (s.find v).2.root (s.find v).1 = (s.find v).1 := by
    rw [s.find_fst v, h v]
    exact (congrFun (congrArg Classes.root (s.classes_find v)) _).trans (s.root_root v)
  intro w
  have hup := (s.find v).2.up_of_root hend
  rw [anchor_bind hup, root_bind hup, h.find v]

theorem Plain.unite (h : s.Plain) (a b : ℕ) : (s.unite a b).Plain := by
  intro w
  have ha : (s.unite a b).anchor w = (s.classes.unite a b).anchor w :=
    congrFun (congrArg Classes.anchor (s.classes_unite a b)) w
  have hr : (s.unite a b).root w = (s.classes.unite a b).root w :=
    congrFun (congrArg Classes.root (s.classes_unite a b)) w
  rw [ha, hr]
  show (if s.anchor w = s.root a then s.root b else s.anchor w) =
    if s.root w = s.root a then s.root b else s.root w
  rw [h]

end Slots

end Ral.UnionFind
