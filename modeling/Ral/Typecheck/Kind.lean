import Mathlib.Data.Finset.Insert
import Mathlib.Data.Finset.Lattice.Basic
import Mathlib.Data.List.Perm.Basic

/-! # The type language

Value types, computation types and rows are one family of terms indexed by
their sort, so that a walk over types is one recursion and a union-find store
is one structure at each sort.
-/

namespace Ral.Typecheck

/-! ## Labels and grades -/

/-- A row label together with the alphabet it is drawn from. -/
inductive Label
  | field (name : String)
  | case (name : String)
deriving DecidableEq

namespace Label

def name : Label → String
  | field s | case s => s

def shown : Label → String
  | field s => s
  | case s => "`" ++ s

def isField : Label → Bool
  | field _ => true
  | case _ => false

end Label

/-- What a producer produces: a value, or its output. -/
inductive Grade
  | value
  | output
  | var (v : ℕ)
deriving DecidableEq

/-! ## Terms -/

/-- The three sorts of terms that hold variables of their own. -/
inductive Srt
  | ty
  | comp
  | row
deriving DecidableEq

inductive Term : Srt → Type
  | var {s : Srt} (v : ℕ) : Term s
  | unit : Term .ty
  | bytes : Term .ty
  | bool : Term .ty
  | int : Term .ty
  | float : Term .ty
  | string : Term .ty
  | list (a : Term .ty) : Term .ty
  | map (a : Term .ty) : Term .ty
  | record (r : Term .row) : Term .ty
  | variant (r : Term .row) : Term .ty
  | thunk (b : Term .comp) : Term .ty
  | handle (g : Grade) (a : Term .ty) : Term .ty
  | ret (g : Grade) (a : Term .ty) : Term .comp
  | func (a : Term .ty) (b : Term .comp) : Term .comp
  | empty : Term .row
  | extend (l : Label) (t : Term .ty) (rest : Term .row) : Term .row
deriving DecidableEq

abbrev Ty := Term .ty
abbrev CompTy := Term .comp
abbrev Row := Term .row

abbrev TyVar := ℕ
abbrev CompTyVar := ℕ
abbrev RowVar := ℕ
abbrev GradeVar := ℕ

namespace Term

/-- The variable a bare one is. -/
def asVar {s : Srt} : Term s → Option ℕ
  | var v => some v
  | _ => none

@[simp] theorem asVar_var {s : Srt} (v : ℕ) : (var v : Term s).asVar = some v := by
  cases s <;> rfl

theorem eq_var_of_asVar {s : Srt} {t : Term s} {v : ℕ} (h : t.asVar = some v) : t = var v := by
  cases t <;> simp_all [asVar]

def children {s : Srt} : Term s → List (Σ s, Term s)
  | list a | map a | handle _ a | ret _ a => [⟨.ty, a⟩]
  | record r | variant r => [⟨.row, r⟩]
  | thunk b => [⟨.comp, b⟩]
  | func a b => [⟨.ty, a⟩, ⟨.comp, b⟩]
  | extend _ t rest => [⟨.ty, t⟩, ⟨.row, rest⟩]
  | var _ | unit | bytes | bool | int | float | string | empty => []

def grade {s : Srt} : Term s → Option Grade
  | handle g _ | ret g _ => some g
  | _ => none

end Term

/-! ## Kinds

The closed set of predicates a type variable may carry: a set of admissible
heads and a deep bit, which imposes `data` on every component.
-/

/-- The outermost constructor of a non-variable value type. -/
inductive Head
  | unit
  | bool
  | int
  | float
  | string
  | bytes
  | list
  | map
  | record
  | variant
  | thunk
  | handle
deriving DecidableEq

namespace Head

def all : List Head :=
  [unit, bool, int, float, string, bytes, list, map, record, variant, thunk, handle]

theorem mem_all (h : Head) : h ∈ all := by cases h <;> decide

def of : Ty → Option Head
  | .var _ => none
  | .unit => some unit
  | .bool => some bool
  | .int => some int
  | .float => some float
  | .string => some string
  | .bytes => some bytes
  | .list _ => some list
  | .map _ => some map
  | .record _ => some record
  | .variant _ => some variant
  | .thunk _ => some thunk
  | .handle _ _ => some handle

/-- The type a head with no components is. -/
def nullary : Head → Option Ty
  | unit => some .unit
  | bool => some .bool
  | int => some .int
  | float => some .float
  | string => some .string
  | bytes => some .bytes
  | list | map | record | variant | thunk | handle => none

theorem of_nullary {h : Head} {t : Ty} (ht : h.nullary = some t) : of t = some h := by
  cases h <;> simp only [nullary, Option.some.injEq, reduceCtorEq] at ht <;> subst ht <;> rfl

theorem nullary_ne_var {h : Head} {t : Ty} (ht : h.nullary = some t) : t.asVar = none := by
  cases h <;> simp only [nullary, Option.some.injEq, reduceCtorEq] at ht <;> subst ht <;> rfl

def structural : Finset Head := {list, map, record, variant}

/-- Every head but a block and a handle. -/
def data : Finset Head := {unit, bool, int, float, string, bytes, list, map, record, variant}

def every : Finset Head := all.toFinset

@[simp] theorem mem_every (h : Head) : h ∈ every := List.mem_toFinset.mpr h.mem_all

end Head

/-- Admissible heads, and whether every component must be data too. -/
structure Kind where
  heads : Finset Head
  deep : Bool
  inhabited : heads.Nonempty
  deep_structural : deep = true → (heads ∩ Head.structural).Nonempty
  deep_data : deep = true → heads ⊆ Head.data
deriving DecidableEq

namespace Kind

@[ext] theorem ext {k k' : Kind} (hh : k.heads = k'.heads) (hd : k.deep = k'.deep) : k = k' := by
  cases k
  cases k'
  cases hh
  cases hd
  rfl

/-- A kind whose deep bit is kept only where it means anything. -/
def new (heads : Finset Head) (deep : Bool) (hne : heads.Nonempty)
    (hdata : deep = true → heads ⊆ Head.data) : Kind where
  heads := heads
  deep := deep && decide (heads ∩ Head.structural).Nonempty
  inhabited := hne
  deep_structural h := by simp_all
  deep_data h := hdata (by simp_all)

/-- The kind of a variable nothing constrains. -/
def ANY : Kind := new Head.every false (by decide) (by decide)

def NUMBER : Kind := new {.int, .float} false (by decide) (by decide)

def COMPARABLE : Kind := new {.int, .float, .string} false (by decide) (by decide)

def SCALAR : Kind := new {.bool, .int, .float, .string} false (by decide) (by decide)

def SIZED : Kind := new {.string, .bytes, .list, .map} false (by decide) (by decide)

/-- Everything but a block or a handle, all the way down. -/
def DATA : Kind := new Head.data true (by decide) (by decide)

def isAny (k : Kind) : Bool := decide (k = ANY)

def admits (k : Kind) (h : Head) : Bool := decide (h ∈ k.heads)

/-- The heads both admit, deep if either is, unless nothing is both. -/
def meet (k k' : Kind) : Option Kind :=
  if h : (k.heads ∩ k'.heads).Nonempty then
    some (new (k.heads ∩ k'.heads) (k.deep || k'.deep) h (by
      intro hd
      rcases Bool.or_eq_true_iff.mp hd with hk | hk
      · exact Finset.inter_subset_left.trans (k.deep_data hk)
      · exact Finset.inter_subset_right.trans (k'.deep_data hk)))
  else none

/-- The one type a single nullary head leaves. -/
def pin (k : Kind) : Option Ty :=
  (Head.all.find? fun h => decide (k.heads = {h})).bind Head.nullary

example : DATA.meet SCALAR = some SCALAR := by decide

/-! ## The order of kinds -/

/-- `k` is at least as strong as `k'`: fewer heads, and deep wherever that
means anything if `k'` is. -/
structure Le (k k' : Kind) : Prop where
  heads : k.heads ⊆ k'.heads
  deep : k'.deep = true → k.deep = true ∨ k.heads ∩ Head.structural = ∅

theorem meet_eq_some {k k' m : Kind} :
    k.meet k' = some m ↔ m.heads = k.heads ∩ k'.heads ∧
      m.deep = ((k.deep || k'.deep) && decide (m.heads ∩ Head.structural).Nonempty) := by
  unfold meet
  constructor
  · intro h
    split at h
    · cases h
      exact ⟨rfl, rfl⟩
    · cases h
  · rintro ⟨hh, hd⟩
    have hne : (k.heads ∩ k'.heads).Nonempty := hh ▸ m.inhabited
    rw [dif_pos hne]
    congr 1
    exact ext hh.symm (by rw [hd, hh]; rfl)

theorem meet_le_left {k k' m : Kind} (h : k.meet k' = some m) : m.Le k := by
  have hm := meet_eq_some.mp h
  refine ⟨hm.1 ▸ Finset.inter_subset_left, fun hk => ?_⟩
  by_cases hs : (m.heads ∩ Head.structural).Nonempty
  · left
    rw [hm.2, hk]
    simpa using hs
  · exact Or.inr (Finset.not_nonempty_iff_eq_empty.mp hs)

theorem meet_comm (k k' : Kind) : k.meet k' = k'.meet k := by
  unfold meet
  have hc := Finset.inter_comm k.heads k'.heads
  by_cases h : (k.heads ∩ k'.heads).Nonempty
  · rw [dif_pos h, dif_pos (hc ▸ h)]
    congr 1
    exact ext hc (by simp [new, hc, Bool.or_comm])
  · rw [dif_neg h, dif_neg (hc ▸ h)]

theorem meet_le_right {k k' m : Kind} (h : k.meet k' = some m) : m.Le k' :=
  meet_le_left (meet_comm k k' ▸ h)

theorem pin_eq_some {k : Kind} {t : Ty} :
    k.pin = some t ↔ ∃ h, k.heads = {h} ∧ h.nullary = some t := by
  unfold pin
  constructor
  · intro ht
    obtain ⟨h, hf, hn⟩ := Option.bind_eq_some_iff.mp ht
    exact ⟨h, by simpa using List.find?_some hf, hn⟩
  · rintro ⟨h, hk, hn⟩
    have hf : Head.all.find? (fun h' => decide (k.heads = {h'})) = some h := by
      rw [hk]
      revert hn
      clear hk
      cases h <;> intro _ <;> decide
    rw [hf]
    exact hn

theorem pin_ne_var {k : Kind} {t : Ty} (h : k.pin = some t) : t.asVar = none := by
  obtain ⟨_, _, hn⟩ := pin_eq_some.mp h
  exact Head.nullary_ne_var hn

theorem any_pin : ANY.pin = none := by decide

end Kind

end Ral.Typecheck
