import Mathlib.Logic.Function.Basic
import Ral.Env.Entries

/-! # The environment is a finite map

Each operation does to the map an environment represents what its name says, and so does
any sequence of them from the empty environment: what a lookup finds never depends on the
representation in use.
-/

namespace Ral.Env

open Ral.Ir Ral.Eval

variable {σ : Type} {e : Entries σ} {m : SortedMap Name (Binding σ)}

/-! ## One operation -/

theorem stands_binding (h : Stands e m) (name : Name) : e.binding name = m.get name := by
  cases e with
  | large n =>
    cases h
    rfl
  | small a =>
    obtain ⟨rfl, -⟩ := h
    cases hs : binarySearch (keys m.entries) name with
    | ok i =>
      obtain ⟨b, hget, -⟩ := split_ok hs
      simp only [Entries.binding, hs, hget, Option.map_some]
      exact (SortedMap.get_eq_some.mpr (List.mem_of_getElem? hget)).symm
    | error i =>
      simp only [Entries.binding, hs]
      have habsent : name ∉ keys m.entries := by
        intro hmem
        obtain ⟨j, hj⟩ := (binarySearch_isOk (sorted_keys m) name).mpr hmem
        rw [hs] at hj
        cases hj
      exact (SortedMap.get_eq_none.mpr habsent).symm

theorem stands_names (h : Stands e m) : e.names = keys m.entries := by
  cases e with
  | large n =>
    cases h
    rfl
  | small a =>
    obtain ⟨rfl, -⟩ := h
    rfl

theorem stands_extend (h : Stands e m) (entries : List (Name × Binding σ)) :
    Stands (e.extend entries) (entries.foldl (fun m e => m.insert e.1 e.2) m) := by
  unfold Entries.extend
  by_cases hnil : entries.length = 0
  · rw [if_pos hnil, List.length_eq_zero_iff.mp hnil]
    exact h
  · rw [if_neg hnil]
    cases e with
    | large n =>
      cases h
      rfl
    | small a =>
      obtain ⟨rfl, -⟩ := h
      simp only []
      rw [foldl_mergeOne]
      exact stands_smallOrLarge _

theorem stands_bind (h : Stands e m) (name : Name) (b : Binding σ) :
    Stands (e.bind name b) (m.insert name b) := by
  have general := stands_extend h [(name, b)]
  cases e with
  | large n => exact general
  | small a =>
    obtain ⟨rfl, hlen⟩ := h
    cases hs : binarySearch (keys m.entries) name with
    | ok i =>
      simp only [Entries.bind, hs]
      by_cases hroom : m.entries.length - (i + 1 - i) < SMALL
      · rw [if_pos hroom]
        have heq := entries_insert_ok hs b
        refine ⟨heq, ?_⟩
        have hi : i < m.entries.length := by
          obtain ⟨_, hget, -⟩ := split_ok hs
          exact (List.getElem?_eq_some_iff.mp hget).1
        rw [List.length_append, List.length_cons, List.length_take, List.length_drop]
        omega
      · rw [if_neg hroom]
        exact general
    | error i =>
      simp only [Entries.bind, hs]
      by_cases hroom : m.entries.length - (i - i) < SMALL
      · rw [if_pos hroom]
        have hi := (split_error hs).1
        refine ⟨entries_insert_error hs b, ?_⟩
        rw [List.length_append, List.length_cons, List.length_take, List.length_drop]
        omega
      · rw [if_neg hroom]
        exact general

theorem entries_erase_split {name : Name} {front back : List (Name × Binding σ)} {b : Binding σ}
    (h : m.entries = front ++ (name, b) :: back) : (m.erase name).entries = front ++ back := by
  obtain ⟨below, above⟩ := around h
  rw [SortedMap.entries_erase, h, List.filter_append, List.filter_cons_of_neg (by simp)]
  congr 1
  · exact List.filter_eq_self.mpr fun x hx => by simpa using ne_of_lt (below x hx)
  · exact List.filter_eq_self.mpr fun x hx => by simpa using (ne_of_lt (above x hx)).symm

theorem erase_of_absent {name : Name} (h : name ∉ keys m.entries) : m.erase name = m := by
  apply SortedMap.ext
  rw [SortedMap.entries_erase]
  refine List.filter_eq_self.mpr fun x hx => ?_
  have hne : x.1 ≠ name := fun he => h (he ▸ List.mem_map_of_mem hx)
  simpa using hne

theorem stands_unset (h : Stands e m) (name : Name) :
    Stands (e.unset name).2 (m.erase name) ∧ (e.unset name).1 = (m.get name).map Binding.value := by
  have hbinding := stands_binding h name
  cases e with
  | large n =>
    cases h
    exact ⟨rfl, rfl⟩
  | small a =>
    obtain ⟨rfl, hlen⟩ := h
    rw [← hbinding]
    cases hs : binarySearch (keys m.entries) name with
    | ok i =>
      obtain ⟨b, hget, hsplit⟩ := split_ok hs
      refine ⟨?_, by simp [Entries.unset, Entries.binding, hs, hget]⟩
      simp only [Entries.unset, hs]
      rw [List.eraseIdx_eq_take_drop_succ, ← entries_erase_split hsplit]
      exact stands_smallOrLarge _
    | error i =>
      simp only [Entries.unset, Entries.binding, hs, Option.map_none, and_true]
      have habsent : name ∉ keys m.entries := by
        intro hmem
        obtain ⟨j, hj⟩ := (binarySearch_isOk (sorted_keys m) name).mpr hmem
        rw [hs] at hj
        cases hj
      rw [erase_of_absent habsent]
      exact ⟨rfl, hlen⟩

theorem Occ.contains_iff (occ : Occ) (name : Name) : occ.contains name = true ↔ name ∈ occ.names := by
  rw [← binarySearch_isOk occ.ascending]
  unfold Occ.contains
  cases binarySearch occ.names name with
  | ok i => simp [Except.isOk, Except.toBool]
  | error i => simp [Except.isOk, Except.toBool]

def hits (occ : Occ) (m : SortedMap Name (Binding σ)) : SortedMap Name (Binding σ) where
  entries := occ.names.filterMap fun n => (m.get n).map fun b => (n, b)
  ascending := by
    refine List.Pairwise.filterMap _ (fun x y hxy p hp q hq => ?_) occ.ascending
    obtain ⟨_, -, rfl⟩ := Option.map_eq_some_iff.mp hp
    obtain ⟨_, -, rfl⟩ := Option.map_eq_some_iff.mp hq
    exact hxy

theorem mem_hits {occ : Occ} {x : Name × Binding σ} :
    x ∈ (hits occ m).entries ↔ x.1 ∈ occ.names ∧ x ∈ m.entries := by
  unfold hits
  simp only [List.mem_filterMap, Option.map_eq_some_iff]
  constructor
  · intro ⟨n, hn, b, hb, heq⟩
    subst heq
    exact ⟨hn, SortedMap.get_eq_some.mp hb⟩
  · intro ⟨hn, hx⟩
    exact ⟨x.1, hn, x.2, SortedMap.get_eq_some.mpr hx, rfl⟩

theorem get_hits (occ : Occ) (m : SortedMap Name (Binding σ)) (name : Name) :
    (hits occ m).get name = if name ∈ occ.names then m.get name else none := by
  apply Option.ext
  intro b
  rw [SortedMap.get_eq_some, mem_hits]
  by_cases hn : name ∈ occ.names
  · rw [if_pos hn, SortedMap.get_eq_some]
    exact ⟨And.right, fun h => ⟨hn, h⟩⟩
  · rw [if_neg hn]
    exact ⟨fun h => absurd h.1 hn, fun h => nomatch h⟩

theorem hits_of_covered {occ : Occ} (h : ∀ n ∈ keys m.entries, n ∈ occ.names) : hits occ m = m := by
  apply SortedMap.eq_of_perm
  have hnodup (n : SortedMap Name (Binding σ)) : n.entries.Nodup := n.keys_nodup.of_map
  refine (List.perm_ext_iff_of_nodup (hnodup _) (hnodup _)).mpr fun x => ?_
  rw [mem_hits]
  exact ⟨And.right, fun hx => ⟨h x.1 (List.mem_map_of_mem hx), hx⟩⟩

theorem stands_restrict (h : Stands e m) (occ : Occ) : Stands (e.restrict occ) (hits occ m) := by
  unfold Entries.restrict
  by_cases hall : e.len ≤ occ.names.length ∧ e.names.all occ.contains
  · rw [if_pos hall]
    have hcovered : ∀ n ∈ keys m.entries, n ∈ occ.names := by
      intro n hn
      rw [← stands_names h] at hn
      exact (occ.contains_iff n).mp (List.all_eq_true.mp hall.2 n hn)
    rw [hits_of_covered hcovered]
    exact h
  · rw [if_neg hall]
    have heq : (fun n => (e.binding n).map fun b => (n, b)) = fun n => (m.get n).map fun b => (n, b) := by
      funext n
      rw [stands_binding h]
    rw [heq]
    exact stands_smallOrLarge (hits occ m)

/-! ## Any sequence of them -/

inductive Op (σ : Type)
  | bind (name : Name) (b : Binding σ)
  | extend (entries : List (Name × Binding σ))
  | unset (name : Name)
  | restrict (occ : Occ)

def Op.run (e : Entries σ) : Op σ → Entries σ
  | bind name b => e.bind name b
  | extend entries => e.extend entries
  | unset name => (e.unset name).2
  | restrict occ => e.restrict occ

abbrev Plain (σ : Type) := Name → Option (Binding σ)

/-- What each operation means on a finite map. -/
def Op.plain (f : Plain σ) : Op σ → Plain σ
  | bind name b => Function.update f name (some b)
  | extend entries => entries.foldl (fun f e => Function.update f e.1 (some e.2)) f
  | unset name => Function.update f name none
  | restrict occ => fun name => if name ∈ occ.names then f name else none

/-- An environment and the finite map it is. -/
def Refines (e : Entries σ) (f : Plain σ) : Prop := ∃ m, Stands e m ∧ m.get = f

theorem get_insert (m : SortedMap Name (Binding σ)) (name : Name) (b : Binding σ) :
    (m.insert name b).get = Function.update m.get name (some b) := by
  funext x
  by_cases hx : x = name
  · subst hx
    rw [SortedMap.get_insert_self, Function.update_self]
  · rw [SortedMap.get_insert_of_ne m b hx, Function.update_of_ne hx]

theorem get_foldl_insert (entries : List (Name × Binding σ)) (m : SortedMap Name (Binding σ)) :
    (entries.foldl (fun m e => m.insert e.1 e.2) m).get =
      entries.foldl (fun (f : Plain σ) e => Function.update f e.1 (some e.2)) m.get := by
  induction entries generalizing m with
  | nil => rfl
  | cons e entries ih => rw [List.foldl_cons, List.foldl_cons, ih, get_insert]

theorem get_erase (m : SortedMap Name (Binding σ)) (name : Name) :
    (m.erase name).get = Function.update m.get name none := by
  funext x
  by_cases hx : x = name
  · subst hx
    rw [SortedMap.get_erase_self, Function.update_self]
  · rw [SortedMap.get_erase_of_ne m hx, Function.update_of_ne hx]

theorem Refines.step {f : Plain σ} (h : Refines e f) (op : Op σ) : Refines (op.run e) (op.plain f) := by
  obtain ⟨m, hm, rfl⟩ := h
  cases op with
  | bind name b => exact ⟨_, stands_bind hm name b, get_insert m name b⟩
  | extend entries => exact ⟨_, stands_extend hm entries, get_foldl_insert entries m⟩
  | unset name => exact ⟨_, (stands_unset hm name).1, get_erase m name⟩
  | restrict occ => exact ⟨_, stands_restrict hm occ, funext (get_hits occ m)⟩

theorem Refines.run {f : Plain σ} (h : Refines e f) (ops : List (Op σ)) :
    Refines (ops.foldl Op.run e) (ops.foldl Op.plain f) := by
  induction ops generalizing e f with
  | nil => exact h
  | cons op ops ih => exact ih (h.step op)

theorem refines_new : Refines (.new : Entries σ) (fun _ => none) :=
  ⟨SortedMap.empty, stands_new, rfl⟩

theorem Refines.binding {f : Plain σ} (h : Refines e f) (name : Name) : e.binding name = f name := by
  obtain ⟨m, hm, rfl⟩ := h
  exact stands_binding hm name

theorem Refines.unset {f : Plain σ} (h : Refines e f) (name : Name) :
    (e.unset name).1 = (f name).map Binding.value := by
  obtain ⟨m, hm, rfl⟩ := h
  exact (stands_unset hm name).2

theorem Refines.small {f : Plain σ} {a : List (Name × Binding σ)} (h : Refines (.small a) f) :
    (keys a).Pairwise (· < ·) ∧ (keys a).Nodup ∧ a.length ≤ SMALL := by
  obtain ⟨m, ⟨rfl, hlen⟩, -⟩ := h
  exact ⟨sorted_keys m, m.keys_nodup, hlen⟩

/-- After any operations on the empty environment a lookup, or a removal, of any name gives
what they make of the finite map, and a flat array keeps its shape. -/
theorem entries_refine_map (ops : List (Op σ)) :
    (∀ name, (ops.foldl Op.run Entries.new).binding name = ops.foldl Op.plain (fun _ => none) name) ∧
      (∀ name, (ops.foldl Op.run Entries.new).get name =
        (ops.foldl Op.plain (fun _ => none) name).map Binding.value) ∧
      (∀ name, ((ops.foldl Op.run Entries.new).unset name).1 =
        (ops.foldl Op.plain (fun _ => none) name).map Binding.value) ∧
      ∀ a, ops.foldl Op.run Entries.new = .small a →
        (keys a).Pairwise (· < ·) ∧ (keys a).Nodup ∧ a.length ≤ SMALL := by
  have h := (refines_new (σ := σ)).run ops
  refine ⟨h.binding, fun name => ?_, h.unset, fun a ha => ?_⟩
  · unfold Entries.get
    rw [h.binding]
  · rw [ha] at h
    exact h.small

end Ral.Env
