import Ral.Core.Bisect
import Ral.Eval.Value

/-! # The environment a closure carries

A finite map from names to bindings in two representations: one flat array, sorted by
name, up to a size limit, and a persistent hash map past it. An operation picks the
representation again from the number of entries it leaves.
-/

namespace Ral.Env

open Ral.Ir Ral.Eval

/-- Value and scheme are installed together. -/
structure Binding (σ : Type) where
  value : Value
  scheme : Option σ

/-- Up to this many entries stay one flat array. -/
def SMALL : ℕ := 8

inductive Entries (σ : Type)
  | small (a : List (Name × Binding σ))
  | large (m : SortedMap Name (Binding σ))

/-- Every name a node mentions: sorted, distinct. -/
structure Occ where
  names : List Name
  ascending : names.Pairwise (· < ·)

def Occ.contains (occ : Occ) (name : Name) : Bool := (binarySearch occ.names name).isOk

variable {σ : Type}

def keys (a : List (Name × Binding σ)) : List Name := a.map Prod.fst

def smallOrLarge (entries : List (Name × Binding σ)) : Entries σ :=
  if entries.isEmpty then .small []
  else if SMALL < entries.length then .large (SortedMap.ofList entries)
  else .small entries

def mergeOne (merged : List (Name × Binding σ)) (e : Name × Binding σ) : List (Name × Binding σ) :=
  match binarySearch (keys merged) e.1 with
  | .ok i => merged.set i e
  | .error i => merged.insertIdx i e

namespace Entries

def new : Entries σ := .small []

def len : Entries σ → ℕ
  | small a => a.length
  | large m => m.entries.length

def names : Entries σ → List Name
  | small a => keys a
  | large m => keys m.entries

def binding (name : Name) : Entries σ → Option (Binding σ)
  | small a =>
    match binarySearch (keys a) name with
    | .ok i => a[i]?.map Prod.snd
    | .error _ => none
  | large m => m.get name

def get (name : Name) (e : Entries σ) : Option Value := (e.binding name).map Binding.value

def extend (entries : List (Name × Binding σ)) (e : Entries σ) : Entries σ :=
  if entries.length = 0 then e
  else
    match e with
    | small a => smallOrLarge (entries.foldl mergeOne a)
    | large m => large (entries.foldl (fun m e => m.insert e.1 e.2) m)

/-- Below the limit the one fresh array is built from the slices either side. -/
def bind (name : Name) (b : Binding σ) (e : Entries σ) : Entries σ :=
  match e with
  | small a =>
    let (i, j) :=
      match binarySearch (keys a) name with
      | .ok i => (i, i + 1)
      | .error i => (i, i)
    if a.length - (j - i) < SMALL then small (a.take i ++ (name, b) :: a.drop j)
    else extend [(name, b)] e
  | large _ => extend [(name, b)] e

def unset (name : Name) : Entries σ → Option Value × Entries σ
  | small a =>
    match binarySearch (keys a) name with
    | .ok i => (a[i]?.map fun e => e.2.value, smallOrLarge (a.eraseIdx i))
    | .error _ => (none, small a)
  | large m => ((m.get name).map Binding.value, large (m.erase name))

/-- Narrowed to the names mentioned; itself where these cover every name it binds. -/
def restrict (occ : Occ) (e : Entries σ) : Entries σ :=
  if e.len ≤ occ.names.length ∧ e.names.all occ.contains then e
  else smallOrLarge (occ.names.filterMap fun n => (e.binding n).map fun b => (n, b))

end Entries

/-! ## What an environment stands for -/

def Stands : Entries σ → SortedMap Name (Binding σ) → Prop
  | .small a, m => m.entries = a ∧ a.length ≤ SMALL
  | .large n, m => n = m

theorem stands_new : Stands (.new : Entries σ) SortedMap.empty := ⟨rfl, Nat.zero_le _⟩

theorem stands_smallOrLarge (m : SortedMap Name (Binding σ)) : Stands (smallOrLarge m.entries) m := by
  unfold smallOrLarge
  by_cases hnil : m.entries = []
  · rw [if_pos (by simp [hnil])]
    exact ⟨hnil, Nat.zero_le _⟩
  · rw [if_neg (by simpa using hnil)]
    by_cases hlong : SMALL < m.entries.length
    · rw [if_pos hlong]
      exact SortedMap.ofList_entries m
    · rw [if_neg hlong]
      exact ⟨rfl, Nat.le_of_not_lt hlong⟩

theorem sorted_keys (m : SortedMap Name (Binding σ)) : (keys m.entries).Pairwise (· < ·) :=
  List.pairwise_map.mpr m.ascending

theorem keys_getElem? (a : List (Name × Binding σ)) (i : ℕ) : (keys a)[i]? = a[i]?.map Prod.fst :=
  List.getElem?_map

theorem split_ok {m : SortedMap Name (Binding σ)} {name : Name} {i : ℕ}
    (h : binarySearch (keys m.entries) name = .ok i) :
    ∃ b, m.entries[i]? = some (name, b) ∧ m.entries = m.entries.take i ++ (name, b) :: m.entries.drop (i + 1) := by
  have hkey := binarySearch_ok h
  rw [keys_getElem?, Option.map_eq_some_iff] at hkey
  obtain ⟨⟨n, b⟩, hget, rfl⟩ := hkey
  refine ⟨b, hget, ?_⟩
  obtain ⟨hi, hentry⟩ := List.getElem?_eq_some_iff.mp hget
  calc m.entries = m.entries.take i ++ m.entries.drop i := (List.take_append_drop i _).symm
    _ = m.entries.take i ++ (n, b) :: m.entries.drop (i + 1) := by rw [List.drop_eq_getElem_cons hi, hentry]

theorem split_error {m : SortedMap Name (Binding σ)} {name : Name} {i : ℕ}
    (h : binarySearch (keys m.entries) name = .error i) :
    i ≤ m.entries.length ∧ (∀ e ∈ m.entries.take i, e.1 < name) ∧ ∀ e ∈ m.entries.drop i, name < e.1 := by
  obtain ⟨hi, below, above⟩ := binarySearch_error (sorted_keys m) h
  refine ⟨by simpa [keys] using hi, fun e he => ?_, fun e he => ?_⟩
  · obtain ⟨j, hj⟩ := List.mem_iff_getElem?.mp he
    have hji : j < i := by
      have := (List.getElem?_eq_some_iff.mp hj).1
      rw [List.length_take] at this
      omega
    rw [List.getElem?_take_of_lt hji] at hj
    exact below j e.1 hji (by rw [keys_getElem?, hj]; rfl)
  · obtain ⟨j, hj⟩ := List.mem_iff_getElem?.mp he
    rw [List.getElem?_drop] at hj
    exact above (i + j) e.1 (Nat.le_add_right _ _) (by rw [keys_getElem?, hj]; rfl)

theorem around {m : SortedMap Name (Binding σ)} {front back : List (Name × Binding σ)} {e : Name × Binding σ}
    (h : m.entries = front ++ e :: back) : (∀ x ∈ front, x.1 < e.1) ∧ ∀ x ∈ back, e.1 < x.1 := by
  have hasc := m.ascending
  rw [h] at hasc
  obtain ⟨-, htail, hcross⟩ := List.pairwise_append.mp hasc
  exact ⟨fun x hx => hcross x hx e List.mem_cons_self, (List.pairwise_cons.mp htail).1⟩

theorem entries_insert_ok {m : SortedMap Name (Binding σ)} {name : Name} {i : ℕ}
    (h : binarySearch (keys m.entries) name = .ok i) (b : Binding σ) :
    (m.insert name b).entries = m.entries.take i ++ (name, b) :: m.entries.drop (i + 1) := by
  obtain ⟨old, -, hsplit⟩ := split_ok h
  have hfront := (around hsplit).1
  calc (m.insert name b).entries
      = SortedMap.insertEntry name b (m.entries.take i ++ (name, old) :: m.entries.drop (i + 1)) := by
        rw [← hsplit]; rfl
    _ = m.entries.take i ++ SortedMap.insertEntry name b ((name, old) :: m.entries.drop (i + 1)) :=
        SortedMap.insertEntry_append hfront _
    _ = _ := by rw [SortedMap.insertEntry_of_eq]

theorem entries_insert_error {m : SortedMap Name (Binding σ)} {name : Name} {i : ℕ}
    (h : binarySearch (keys m.entries) name = .error i) (b : Binding σ) :
    (m.insert name b).entries = m.entries.take i ++ (name, b) :: m.entries.drop i := by
  obtain ⟨-, below, above⟩ := split_error h
  calc (m.insert name b).entries
      = SortedMap.insertEntry name b (m.entries.take i ++ m.entries.drop i) := by
        rw [List.take_append_drop]; rfl
    _ = m.entries.take i ++ SortedMap.insertEntry name b (m.entries.drop i) :=
        SortedMap.insertEntry_append below _
    _ = _ := by rw [SortedMap.insertEntry_of_lt above]

theorem insertIdx_eq_take_append {α : Type} {xs : List α} {i : ℕ} (x : α) (h : i ≤ xs.length) :
    xs.insertIdx i x = xs.take i ++ x :: xs.drop i := by
  induction i generalizing xs with
  | zero => simp
  | succ i ih =>
    cases xs with
    | nil => simp at h
    | cons y xs =>
      have hi : i ≤ xs.length := by simpa using h
      rw [List.insertIdx_succ_cons, ih hi]
      rfl

theorem mergeOne_eq (m : SortedMap Name (Binding σ)) (e : Name × Binding σ) :
    mergeOne m.entries e = (m.insert e.1 e.2).entries := by
  unfold mergeOne
  cases h : binarySearch (keys m.entries) e.1 with
  | ok i =>
    have hlen : i < m.entries.length := by
      obtain ⟨b, hget, -⟩ := split_ok h
      exact (List.getElem?_eq_some_iff.mp hget).1
    simp only []
    rw [List.set_eq_take_append_cons_drop, if_pos hlen, entries_insert_ok h]
  | error i =>
    have hlen := (split_error h).1
    simp only []
    rw [insertIdx_eq_take_append e hlen, entries_insert_error h]

theorem foldl_mergeOne (entries : List (Name × Binding σ)) (m : SortedMap Name (Binding σ)) :
    entries.foldl mergeOne m.entries = (entries.foldl (fun m e => m.insert e.1 e.2) m).entries := by
  induction entries generalizing m with
  | nil => rfl
  | cons e entries ih => rw [List.foldl_cons, List.foldl_cons, mergeOne_eq, ih]

end Ral.Env
