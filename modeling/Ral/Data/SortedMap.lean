import Mathlib.Data.List.Sort

/-! # Maps kept in key order

An association list whose keys ascend strictly. Inserting a key that is there
replaces its value, so building one from a list keeps the last value of each key.
-/

namespace Ral

/-- Keys ascend, each once. -/
structure SortedMap (κ α : Type) [LinearOrder κ] where
  entries : List (κ × α)
  ascending : entries.Pairwise fun a b => a.1 < b.1

namespace SortedMap

variable {κ α : Type} [LinearOrder κ]

theorem ext {m m' : SortedMap κ α} (h : m.entries = m'.entries) : m = m' := by
  cases m
  cases m'
  cases h
  rfl

def insertEntry (k : κ) (v : α) : List (κ × α) → List (κ × α)
  | [] => [(k, v)]
  | e :: es =>
    if k < e.1 then (k, v) :: e :: es
    else if e.1 = k then (k, v) :: es
    else e :: insertEntry k v es

theorem mem_keys_insertEntry {k : κ} {v : α} {es : List (κ × α)} {x : κ} :
    x ∈ (insertEntry k v es).map Prod.fst ↔ x = k ∨ x ∈ es.map Prod.fst := by
  induction es with
  | nil => simp [insertEntry]
  | cons e es ih =>
    rw [insertEntry]
    split
    · simp
    · split
      · next he =>
          subst he
          simp
      · rw [List.map_cons, List.mem_cons, ih, List.map_cons, List.mem_cons]
        tauto

theorem ascending_insertEntry {k : κ} {v : α} {es : List (κ × α)}
    (h : es.Pairwise fun a b => a.1 < b.1) :
    (insertEntry k v es).Pairwise fun a b => a.1 < b.1 := by
  induction es with
  | nil => simp [insertEntry]
  | cons e es ih =>
    have hcons := List.pairwise_cons.mp h
    rw [insertEntry]
    split
    · next hlt =>
        refine List.pairwise_cons.mpr ⟨fun b hb => ?_, h⟩
        rcases List.mem_cons.mp hb with hb | hb
        · rw [hb]
          exact hlt
        · exact lt_trans hlt (hcons.1 b hb)
    · next hge =>
        split
        · next he =>
            refine List.pairwise_cons.mpr ⟨fun b hb => ?_, hcons.2⟩
            exact he ▸ hcons.1 b hb
        · next hne =>
            have hlt : e.1 < k := lt_of_le_of_ne (not_lt.mp hge) hne
            refine List.pairwise_cons.mpr ⟨fun b hb => ?_, ih hcons.2⟩
            have hkey : b.1 ∈ (insertEntry k v es).map Prod.fst := List.mem_map_of_mem hb
            rcases mem_keys_insertEntry.mp hkey with hk | hk
            · exact hk ▸ hlt
            · obtain ⟨b', hb', hkb⟩ := List.mem_map.mp hk
              exact hkb ▸ hcons.1 b' hb'

theorem perm_insertEntry {k : κ} {v : α} {es : List (κ × α)} (h : k ∉ es.map Prod.fst) :
    (insertEntry k v es).Perm ((k, v) :: es) := by
  induction es with
  | nil => exact .refl _
  | cons e es ih =>
    rw [List.map_cons, List.mem_cons, not_or] at h
    rw [insertEntry]
    split
    · exact .refl _
    · rw [if_neg fun he => h.1 he.symm]
      exact ((ih h.2).cons e).trans (.swap ..)

def empty : SortedMap κ α := ⟨[], .nil⟩

def insert (m : SortedMap κ α) (k : κ) (v : α) : SortedMap κ α :=
  ⟨insertEntry k v m.entries, ascending_insertEntry m.ascending⟩

def ofList (es : List (κ × α)) : SortedMap κ α := es.foldl (fun m e => m.insert e.1 e.2) empty

theorem keys_nodup (m : SortedMap κ α) : (m.entries.map Prod.fst).Nodup := by
  have h := m.ascending.imp fun {a b} hab => ne_of_lt hab
  rw [List.Nodup, List.pairwise_map]
  exact h

theorem perm_foldl_insert {es : List (κ × α)} {m : SortedMap κ α}
    (h : ((m.entries ++ es).map Prod.fst).Nodup) :
    (es.foldl (fun m e => m.insert e.1 e.2) m).entries.Perm (m.entries ++ es) := by
  induction es generalizing m with
  | nil => simp
  | cons e es ih =>
    have hswap : (m.entries ++ e :: es).Perm (e :: m.entries ++ es) := List.perm_middle
    have hnd : ((e :: m.entries ++ es).map Prod.fst).Nodup := (hswap.map _).nodup_iff.mp h
    have hnew : e.1 ∉ m.entries.map Prod.fst := by
      rw [List.cons_append, List.map_cons, List.nodup_cons, List.map_append, List.mem_append,
        not_or] at hnd
      exact hnd.1.1
    have hins : (m.insert e.1 e.2).entries.Perm (e :: m.entries) := perm_insertEntry hnew
    have hnd' : (((m.insert e.1 e.2).entries ++ es).map Prod.fst).Nodup :=
      ((hins.append_right es).map _).nodup_iff.mpr hnd
    rw [List.foldl_cons]
    exact (ih hnd').trans ((hins.append_right es).trans hswap.symm)

theorem perm_ofList {es : List (κ × α)} (h : (es.map Prod.fst).Nodup) :
    (ofList es).entries.Perm es :=
  perm_foldl_insert (m := empty) h

theorem eq_of_perm {m m' : SortedMap κ α} (h : m.entries.Perm m'.entries) : m = m' := by
  have hasymm : ∀ a b : κ × α, a ∈ m.entries → b ∈ m'.entries → a.1 < b.1 → b.1 < a.1 → a = b := by
    intro a b _ _ hab hba
    exact (lt_asymm hab hba).elim
  exact ext (h.eq_of_pairwise hasymm m.ascending m'.ascending)

theorem ofList_entries (m : SortedMap κ α) : ofList m.entries = m :=
  eq_of_perm (perm_ofList m.keys_nodup)

/-! ## Reading and removing -/

def get (m : SortedMap κ α) (k : κ) : Option α := (m.entries.find? fun e => e.1 = k).map Prod.snd

def erase (m : SortedMap κ α) (k : κ) : SortedMap κ α :=
  ⟨m.entries.filter fun e => e.1 ≠ k, m.ascending.filter _⟩

@[simp] theorem entries_empty : (empty : SortedMap κ α).entries = [] := rfl

@[simp] theorem entries_erase (m : SortedMap κ α) (k : κ) :
    (m.erase k).entries = m.entries.filter fun e => e.1 ≠ k := rfl

theorem get_eq_some {m : SortedMap κ α} {k : κ} {v : α} : m.get k = some v ↔ (k, v) ∈ m.entries := by
  unfold get
  constructor
  · intro h
    obtain ⟨e, he, rfl⟩ := Option.map_eq_some_iff.mp h
    have same : e.1 = k := by simpa using List.find?_some he
    rw [← same]
    exact List.mem_of_find?_eq_some he
  · intro h
    cases hf : m.entries.find? fun e => e.1 = k with
    | none =>
      have := List.find?_eq_none.mp hf (k, v) h
      simp at this
    | some e =>
      have same : e.1 = k := by simpa using List.find?_some hf
      have mem := List.mem_of_find?_eq_some hf
      have unique : e = (k, v) := List.inj_on_of_nodup_map m.keys_nodup mem h same
      simp [unique]

theorem get_eq_none {m : SortedMap κ α} {k : κ} : m.get k = none ↔ k ∉ m.entries.map Prod.fst := by
  unfold get
  simp only [Option.map_eq_none_iff, List.find?_eq_none, List.mem_map, not_exists, not_and,
    decide_eq_true_eq]

theorem get_isSome {m : SortedMap κ α} {k : κ} : (m.get k).isSome ↔ k ∈ m.entries.map Prod.fst := by
  rw [← not_iff_not, Option.not_isSome_iff_eq_none, get_eq_none]

theorem mem_insertEntry_self (k : κ) (v : α) (es : List (κ × α)) : (k, v) ∈ insertEntry k v es := by
  induction es with
  | nil => simp [insertEntry]
  | cons e es ih =>
    rw [insertEntry]
    split
    · exact List.mem_cons_self
    · split
      · exact List.mem_cons_self
      · exact List.mem_cons_of_mem _ ih

theorem mem_insertEntry {k : κ} {v : α} {es : List (κ × α)} {e : κ × α} (h : e ∈ insertEntry k v es) :
    e = (k, v) ∨ e ∈ es := by
  induction es with
  | nil => exact Or.inl (List.mem_singleton.mp h)
  | cons e' es ih =>
    rw [insertEntry] at h
    split at h
    · exact List.mem_cons.mp h
    · split at h
      · rcases List.mem_cons.mp h with h | h
        · exact Or.inl h
        · exact Or.inr (List.mem_cons_of_mem _ h)
      · rcases List.mem_cons.mp h with h | h
        · exact Or.inr (h ▸ List.mem_cons_self)
        · exact (ih h).imp id (List.mem_cons_of_mem _)

theorem mem_ofList {es : List (κ × α)} {e : κ × α} (h : e ∈ (ofList es).entries) : e ∈ es := by
  have general : ∀ (es : List (κ × α)) (m : SortedMap κ α),
      e ∈ (es.foldl (fun m e => m.insert e.1 e.2) m).entries → e ∈ m.entries ∨ e ∈ es := by
    intro es
    induction es with
    | nil => exact fun _ mem => Or.inl mem
    | cons x rest ih =>
      intro m mem
      rcases ih (m.insert x.1 x.2) mem with old | later
      · rcases mem_insertEntry old with rfl | old
        · exact Or.inr List.mem_cons_self
        · exact Or.inl old
      · exact Or.inr (List.mem_cons_of_mem _ later)
  rcases general es empty h with none | mem
  · cases none
  · exact mem

theorem get_insert_self (m : SortedMap κ α) (k : κ) (v : α) : (m.insert k v).get k = some v :=
  get_eq_some.mpr (mem_insertEntry_self k v m.entries)

theorem insertEntry_append {k : κ} {v : α} {front : List (κ × α)} (below : ∀ e ∈ front, e.1 < k)
    (es : List (κ × α)) : insertEntry k v (front ++ es) = front ++ insertEntry k v es := by
  induction front with
  | nil => rfl
  | cons e front ih =>
    have hlt := below e List.mem_cons_self
    rw [List.cons_append, insertEntry, if_neg (lt_asymm hlt), if_neg (ne_of_lt hlt),
      ih fun x hx => below x (List.mem_cons_of_mem _ hx)]
    rfl

theorem insertEntry_of_lt {k : κ} {v : α} {es : List (κ × α)} (above : ∀ e ∈ es, k < e.1) :
    insertEntry k v es = (k, v) :: es := by
  cases es with
  | nil => rfl
  | cons e es => rw [insertEntry, if_pos (above e List.mem_cons_self)]

theorem insertEntry_of_eq (k : κ) (v w : α) (es : List (κ × α)) :
    insertEntry k v ((k, w) :: es) = (k, v) :: es := by
  rw [insertEntry, if_neg (lt_irrefl k), if_pos rfl]

theorem entries_insert_last {m : SortedMap κ α} {k : κ} (h : ∀ e ∈ m.entries, e.1 < k) (v : α) :
    (m.insert k v).entries = m.entries ++ [(k, v)] := by
  have happend := insertEntry_append (v := v) h []
  rwa [List.append_nil] at happend

theorem mem_insertEntry_of_ne {k : κ} {v : α} {es : List (κ × α)} {e : κ × α} (h : e ∈ es) (hne : e.1 ≠ k) :
    e ∈ insertEntry k v es := by
  induction es with
  | nil => cases h
  | cons x es ih =>
    rw [insertEntry]
    split
    · exact List.mem_cons_of_mem _ h
    · split
      · next heq =>
          rcases List.mem_cons.mp h with rfl | hmem
          · exact absurd heq hne
          · exact List.mem_cons_of_mem _ hmem
      · rcases List.mem_cons.mp h with rfl | hmem
        · exact List.mem_cons_self
        · exact List.mem_cons_of_mem _ (ih hmem)

theorem get_insert_of_ne {k x : κ} (m : SortedMap κ α) (v : α) (hne : x ≠ k) :
    (m.insert k v).get x = m.get x := by
  apply Option.ext
  intro w
  rw [get_eq_some, get_eq_some]
  constructor
  · intro hmem
    rcases mem_insertEntry hmem with heq | hold
    · cases heq
      exact absurd rfl hne
    · exact hold
  · exact fun hold => mem_insertEntry_of_ne hold hne

theorem get_erase_self (m : SortedMap κ α) (k : κ) : (m.erase k).get k = none := by
  rw [get_eq_none, entries_erase]
  simp

theorem get_erase_of_ne {k x : κ} (m : SortedMap κ α) (hne : x ≠ k) : (m.erase k).get x = m.get x := by
  apply Option.ext
  intro w
  rw [get_eq_some, get_eq_some, entries_erase, List.mem_filter]
  simp [hne]

theorem erase_of_absent {m : SortedMap κ α} {k : κ} (h : m.get k = none) : m.erase k = m := by
  apply ext
  rw [entries_erase, List.filter_eq_self]
  intro e he
  have hne : e.1 ≠ k := by
    rintro rfl
    exact get_eq_none.mp h (List.mem_map_of_mem he)
  simpa using hne

theorem erase_erase (m : SortedMap κ α) (k : κ) : (m.erase k).erase k = m.erase k :=
  erase_of_absent (get_erase_self m k)

end SortedMap

end Ral
