import Mathlib.Data.List.Dedup
import Mathlib.Data.List.Nodup

/-! # Classes under a key

A list grouped by a key, and its groups again by a key that tells more apart.
-/

namespace Ral

variable {α κ κ' : Type*}

def group [DecidableEq κ] (key : α → κ) (members : List α) : List (List α) :=
  (members.map key).dedup.map fun k => members.filter fun a => key a = k

/-- Each class holds all of `all` that agree with any of its members. -/
structure Grouped (key : α → κ) (all : List α) (classes : List (List α)) : Prop where
  inhabited : ∀ c ∈ classes, c ≠ []
  nodup : ∀ c ∈ classes, c.Nodup
  full : ∀ c ∈ classes, ∀ a ∈ c, ∀ b, b ∈ c ↔ b ∈ all ∧ key b = key a

section Group
variable [DecidableEq κ] {key : α → κ} {members : List α}

theorem exists_of_mem_group {c : List α} (h : c ∈ group key members) :
    ∃ a ∈ members, c = members.filter fun b => key b = key a := by
  obtain ⟨k, hk, rfl⟩ := List.mem_map.mp h
  obtain ⟨a, ha, rfl⟩ := List.mem_map.mp (List.mem_dedup.mp hk)
  exact ⟨a, ha, rfl⟩

theorem mem_flatten_group {a : α} : a ∈ (group key members).flatten ↔ a ∈ members := by
  constructor
  · intro h
    obtain ⟨c, hc, hac⟩ := List.mem_flatten.mp h
    obtain ⟨b, _, rfl⟩ := exists_of_mem_group hc
    exact List.mem_of_mem_filter hac
  · intro h
    apply List.mem_flatten.mpr
    refine ⟨members.filter fun b => key b = key a, ?_, ?_⟩
    · exact List.mem_map.mpr ⟨key a, List.mem_dedup.mpr (List.mem_map_of_mem h), rfl⟩
    · simpa using h

theorem group_classes (h : members.Nodup) : Grouped key members (group key members) := by
  constructor
  case inhabited =>
    intro c hc hnil
    obtain ⟨a, ha, rfl⟩ := exists_of_mem_group hc
    have hmem : a ∈ members.filter fun b => key b = key a := by simpa using ha
    rw [hnil] at hmem
    cases hmem
  case nodup =>
    intro c hc
    obtain ⟨a, _, rfl⟩ := exists_of_mem_group hc
    exact h.filter _
  case full =>
    intro c hc a hac b
    obtain ⟨d, _, rfl⟩ := exists_of_mem_group hc
    have hkey : key a = key d := by simpa using (List.mem_filter.mp hac).2
    rw [hkey]
    simp

end Group

namespace Grouped
variable {key : α → κ} {finer : α → κ'} {all : List α} {classes : List (List α)}

theorem subset (h : Grouped key all classes) {c : List α} (hc : c ∈ classes) {a : α} (ha : a ∈ c) : a ∈ all :=
  ((h.full c hc a ha a).mp ha).1

/-- Groups of classes by a key that agrees only where the first does are classes of it. -/
theorem split [DecidableEq κ'] (h : Grouped key all classes) (hfiner : ∀ a ∈ all, ∀ b ∈ all, finer a = finer b → key a = key b)
    {still : List (List α)} (hstill : still ⊆ classes) : Grouped finer all (still.flatMap (group finer)) := by
  have hgroups {c : List α} (hc : c ∈ still.flatMap (group finer)) : ∃ d ∈ classes, c ∈ group finer d := by
    obtain ⟨d, hd, hcd⟩ := List.mem_flatMap.mp hc
    exact ⟨d, hstill hd, hcd⟩
  constructor
  case inhabited =>
    intro c hc
    obtain ⟨d, hd, hcd⟩ := hgroups hc
    exact (group_classes (h.nodup d hd)).inhabited c hcd
  case nodup =>
    intro c hc
    obtain ⟨d, hd, hcd⟩ := hgroups hc
    exact (group_classes (h.nodup d hd)).nodup c hcd
  case full =>
    intro c hc a hac b
    obtain ⟨d, hd, hcd⟩ := hgroups hc
    have had : a ∈ d := mem_flatten_group.mp (List.mem_flatten_of_mem hcd hac)
    rw [(group_classes (h.nodup d hd)).full c hcd a hac b]
    constructor
    · intro hb
      exact ⟨h.subset hd hb.1, hb.2⟩
    · intro hb
      have hsame := hfiner b hb.1 a (h.subset hd had) hb.2
      exact ⟨(h.full d hd a had b).mpr ⟨hb.1, hsame⟩, hb.2⟩

/-- A class of one is told from all others. -/
theorem alone (h : Grouped key all classes) {a : α} (ha : [a] ∈ classes) {b : α} (hb : b ∈ all) (hkey : key b = key a) :
    b = a := by
  have hmem := (h.full [a] ha a (List.mem_singleton_self a) b).mpr ⟨hb, hkey⟩
  exact List.mem_singleton.mp hmem

/-- A member of a class of more agrees with another. -/
theorem shared (h : Grouped key all classes) {c : List α} (hc : c ∈ classes) (hmore : c.length ≠ 1) {a : α} (ha : a ∈ c) :
    ∃ b ∈ all, b ≠ a ∧ key b = key a := by
  obtain ⟨b, hb, hne⟩ : ∃ b ∈ c, b ≠ a := by
    by_contra hall
    push Not at hall
    have hrep : c = List.replicate c.length a := List.eq_replicate_iff.mpr ⟨rfl, hall⟩
    have hnodup := h.nodup c hc
    rw [hrep, List.nodup_replicate] at hnodup
    have hpos := List.length_pos_of_mem ha
    omega
  have hagree := (h.full c hc a ha b).mp hb
  exact ⟨b, hagree.1, hne, hagree.2⟩

end Grouped

end Ral
