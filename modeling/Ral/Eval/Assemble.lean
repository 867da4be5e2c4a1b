import Ral.Core.Fallible
import Ral.Eval.Host

/-! # Collections with spreads

What a list, a map and a record update with spreads mean, element by element, and that
the evaluator's rules build just that: the short cuts that reuse a spread's spine, and
the two passes by which a key written out wins over every spread.
-/

namespace Ral.Eval

open Ral.Ir

/-! ## Lists -/

def listPart (env : Env) (sig : Signature) : ValListElem → Except Err (List Value)
  | .single v => (form env sig v).map fun x => [x]
  | .spread v =>
    match form env sig v with
    | .error e => .error e
    | .ok (.list items) => .ok items.iter
    | .ok other => .error (spreadTypeErr other)

theorem ListRepr.materialized_eq (l : ListRepr) : l.materialized = l.iter := by
  cases l <;> rfl

section Lists

variable {env : Env} {sig : Signature}

theorem listPart_single {v : Val} {part : List Value} :
    listPart env sig (.single v) = .ok part ↔ ∃ x, form env sig v = .ok x ∧ part = [x] := by
  unfold listPart
  rw [Fallible.map_eq_ok]
  constructor
  · intro ⟨x, hx, heq⟩
    exact ⟨x, hx, heq.symm⟩
  · intro ⟨x, hx, heq⟩
    exact ⟨x, hx, heq.symm⟩

theorem listPart_spread {v : Val} {part : List Value} :
    listPart env sig (.spread v) = .ok part ↔ ∃ items, form env sig v = .ok (.list items) ∧ part = items.iter := by
  cases hv : form env sig v with
  | error e => simp [listPart, hv]
  | ok x => cases x <;> simp [listPart, hv, eq_comm]

/-- The general rule: the elements' parts, left to right, concatenated. -/
theorem listRule_eq_ok {elems : List ValListElem} {items : List Value} {r : ListRepr} :
    listRule env sig elems (.built items) = .ok r ↔
      ∃ parts, elems.mapM (listPart env sig) = .ok parts ∧ r = .built (items ++ parts.flatten) := by
  induction elems generalizing items with
  | nil =>
    simp only [listRule, Except.ok.injEq, List.mapM_nil, pure, Except.pure]
    constructor
    · rintro rfl
      exact ⟨[], rfl, by simp⟩
    · rintro ⟨parts, rfl, rfl⟩
      simp
  | cons elem elems ih =>
    -- one step of the rule has appended the first element's part
    have step {part : List Value} (hpart : listPart env sig elem = .ok part) :
        listRule env sig elems (.built (items ++ part)) = .ok r ↔
          ∃ parts, (elem :: elems).mapM (listPart env sig) = .ok parts ∧ r = .built (items ++ parts.flatten) := by
      rw [ih]
      constructor
      · intro ⟨parts, hparts, hr⟩
        refine ⟨part :: parts, ?_, by rw [hr, List.flatten_cons, List.append_assoc]⟩
        exact Fallible.mapM_eq_ok.mpr (.cons hpart (Fallible.mapM_eq_ok.mp hparts))
      · intro ⟨parts, hparts, hr⟩
        cases Fallible.mapM_eq_ok.mp hparts with
        | cons hfirst hrest =>
          rw [hpart] at hfirst
          cases hfirst
          exact ⟨_, Fallible.mapM_eq_ok.mpr hrest, by rw [hr, List.flatten_cons, List.append_assoc]⟩
    have fails {e : Err} (hpart : listPart env sig elem = .error e) :
        ¬ ∃ parts, (elem :: elems).mapM (listPart env sig) = .ok parts ∧ r = .built (items ++ parts.flatten) := by
      intro ⟨parts, hparts, _⟩
      cases Fallible.mapM_eq_ok.mp hparts with
      | cons hfirst _ =>
        rw [hpart] at hfirst
        cases hfirst
    cases elem with
    | single v =>
      cases hv : form env sig v with
      | error e =>
        have hpart : listPart env sig (.single v) = .error e := by simp [listPart, hv, Except.map]
        simp only [listRule, hv, reduceCtorEq, false_iff]
        exact fails hpart
      | ok x =>
        simp only [listRule, hv]
        exact step (listPart_single.mpr ⟨x, hv, rfl⟩)
    | spread v =>
      cases hv : form env sig v with
      | error e =>
        have hpart : listPart env sig (.spread v) = .error e := by simp [listPart, hv]
        simp only [listRule, hv, reduceCtorEq, false_iff]
        exact fails hpart
      | ok x =>
        cases x with
        | list inner =>
          simp only [listRule, hv, ListRepr.append, ListRepr.materialized_eq]
          exact step (listPart_spread.mpr ⟨inner, hv, rfl⟩)
        | _ =>
          simp only [listRule, hv, reduceCtorEq, false_iff]
          exact fails (by simp only [listPart, hv]; rfl)

theorem mapM_pair {f : ValListElem → Except Err (List Value)} {a b : ValListElem} {parts : List (List Value)} :
    [a, b].mapM f = .ok parts ↔ ∃ x y, f a = .ok x ∧ f b = .ok y ∧ parts = [x, y] := by
  rw [Fallible.mapM_eq_ok]
  constructor
  · intro h
    cases h with
    | cons ha h =>
      cases h with
      | cons hb h =>
        cases h
        exact ⟨_, _, ha, hb, rfl⟩
  · rintro ⟨x, y, ha, hb, rfl⟩
    exact .cons ha (.cons hb .nil)

/-- The short cuts give the list the parts concatenate to. -/
theorem evalList_eq_ok {elems : List ValListElem} {v : Value} :
    evalList elems env sig = .ok v ↔
      ∃ parts, elems.mapM (listPart env sig) = .ok parts ∧ v = .list (.built parts.flatten) := by
  unfold evalList
  split
  · next x xs =>
      simp only [mapM_pair, listPart_single, listPart_spread]
      cases hx : form env sig x with
      | error e => simp [bind, Except.bind]
      | ok a =>
        cases hxs : form env sig xs with
        | error e => simp [bind, Except.bind]
        | ok b =>
          cases b <;> simp [bind, Except.bind, pure, Except.pure, throw, throwThe, MonadExceptOf.throw,
            ListRepr.pushFront, ListRepr.materialized_eq, eq_comm]
  · next xs x =>
      simp only [mapM_pair, listPart_single, listPart_spread]
      cases hxs : form env sig xs with
      | error e => simp [bind, Except.bind]
      | ok b =>
        cases hx : form env sig x with
        | error e => simp [bind, Except.bind]
        | ok a =>
          cases b <;> simp [bind, Except.bind, pure, Except.pure, throw, throwThe, MonadExceptOf.throw,
            ListRepr.pushBack, ListRepr.materialized_eq, eq_comm]
  · rw [Fallible.map_eq_ok]
    simp only [listRule_eq_ok, List.nil_append]
    constructor
    · rintro ⟨r, ⟨parts, hparts, rfl⟩, rfl⟩
      exact ⟨parts, hparts, rfl⟩
    · rintro ⟨parts, hparts, rfl⟩
      exact ⟨_, ⟨parts, hparts, rfl⟩, rfl⟩

end Lists

/-! ## Maps -/

/-- An entry of a map literal, evaluated. -/
inductive Formed
  | entry (key : Name) (v : Value)
  | spread (fields : MapRepr)

def explicitKeys (fs : List Formed) : List Name :=
  fs.filterMap fun f =>
    match f with
    | .entry key _ => some key
    | .spread _ => none

/-- What an entry written out says of a key. -/
def Formed.explicit (k : Name) : Formed → Option Value
  | entry key v => if key = k then some v else none
  | spread _ => none

/-- What a spread says of a key. -/
def Formed.shared (k : Name) : Formed → Option Value
  | entry _ _ => none
  | spread fields => Env.get k fields.iter

/-- The meaning of a map literal: the entry written out, else the first spread with the key. -/
def plainGet (fs : List Formed) (k : Name) : Option Value :=
  (fs.findSome? (Formed.explicit k)).or (fs.findSome? (Formed.shared k))

def addSpread (fields : List (Name × Value)) (m : SortedMap Name Value) : SortedMap Name Value :=
  fields.foldl (fun m e => if (m.get e.1).isSome then m else m.insert e.1 e.2) m

def Formed.add (m : SortedMap Name Value) : Formed → SortedMap Name Value
  | entry key v => m.insert key v
  | spread fields => addSpread fields.iter m

theorem env_get_cons (k x : Name) (v : Value) (es : List (Name × Value)) :
    Env.get x ((k, v) :: es) = if k = x then some v else Env.get x es := by
  unfold Env.get
  by_cases h : k = x
  · rw [List.find?_cons_of_pos (by simpa using h), if_pos h]
    rfl
  · rw [List.find?_cons_of_neg (by simpa using h), if_neg h]

theorem sorted_get_insert (m : SortedMap Name Value) (k x : Name) (v : Value) :
    (m.insert k v).get x = if k = x then some v else m.get x := by
  by_cases h : k = x
  · subst h
    rw [if_pos rfl, SortedMap.get_insert_self]
  · rw [if_neg h, SortedMap.get_insert_of_ne m v (Ne.symm h)]

theorem get_addSpread (fields : List (Name × Value)) (m : SortedMap Name Value) (x : Name) :
    (addSpread fields m).get x = (m.get x).or (Env.get x fields) := by
  induction fields generalizing m with
  | nil => simp [addSpread, Env.get]
  | cons e fields ih =>
    obtain ⟨k, v⟩ := e
    have hstep : addSpread ((k, v) :: fields) m =
        addSpread fields (if (m.get k).isSome then m else m.insert k v) := rfl
    rw [hstep, ih, env_get_cons]
    by_cases hin : (m.get k).isSome
    · rw [if_pos hin]
      by_cases hx : k = x
      · subst hx
        obtain ⟨w, hw⟩ := Option.isSome_iff_exists.mp hin
        simp [hw]
      · rw [if_neg hx]
    · rw [if_neg hin, sorted_get_insert]
      by_cases hx : k = x
      · subst hx
        have hnone : m.get k = none := by simpa using hin
        simp [hnone]
      · rw [if_neg hx, if_neg hx]

/-- From a map that answers with what was written out before what was spread, as the rest is added. -/
theorem get_foldl_add {fs : List Formed} {m : SortedMap Name Value} {explicit shared : Name → Option Value}
    (hm : ∀ x, m.get x = (explicit x).or (shared x)) (nodup : (explicitKeys fs).Nodup)
    (new : ∀ k ∈ explicitKeys fs, explicit k = none) (x : Name) :
    (fs.foldl Formed.add m).get x =
      ((explicit x).or (fs.findSome? (Formed.explicit x))).or ((shared x).or (fs.findSome? (Formed.shared x))) := by
  induction fs generalizing m explicit shared with
  | nil => simp [hm]
  | cons f fs ih =>
    rw [List.foldl_cons]
    cases f with
    | spread fields =>
      have hadd : ∀ y, (Formed.add m (.spread fields)).get y =
          (explicit y).or ((shared y).or (Env.get y fields.iter)) := by
        intro y
        rw [← Option.or_assoc, ← hm]
        exact get_addSpread fields.iter m y
      rw [ih hadd nodup new, List.findSome?_cons, List.findSome?_cons]
      simp only [Formed.explicit, Formed.shared, Option.or_assoc]
      cases Env.get x fields.iter <;> simp
    | entry key v =>
      have hkeys : explicitKeys (.entry key v :: fs) = key :: explicitKeys fs := rfl
      rw [hkeys] at nodup new
      obtain ⟨hfresh, hrest⟩ := List.nodup_cons.mp nodup
      have hkey : explicit key = none := new key List.mem_cons_self
      have hadd : ∀ y, (Formed.add m (.entry key v)).get y =
          ((explicit y).or (if key = y then some v else none)).or (shared y) := by
        intro y
        have hins : (Formed.add m (.entry key v)).get y = if key = y then some v else m.get y :=
          sorted_get_insert m key y v
        rw [hins]
        by_cases hy : key = y
        · subst hy
          simp [hkey]
        · rw [if_neg hy, if_neg hy, hm, Option.or_none]
      have hnew : ∀ k ∈ explicitKeys fs, (explicit k).or (if key = k then some v else none) = none := by
        intro k hk
        have hne : key ≠ k := fun he => hfresh (he ▸ hk)
        rw [new k (List.mem_cons_of_mem _ hk), if_neg hne]
        rfl
      rw [ih hadd hrest hnew, List.findSome?_cons, List.findSome?_cons]
      simp only [Formed.explicit, Formed.shared]
      by_cases hx : key = x
      · subst hx
        simp [hkey]
      · simp [hx]

theorem sorted_ext {m n : SortedMap Name Value} (h : ∀ k, m.get k = n.get k) : m = n := by
  apply SortedMap.eq_of_perm
  have hnodup (m : SortedMap Name Value) : m.entries.Nodup := m.keys_nodup.of_map
  refine (List.perm_ext_iff_of_nodup (hnodup m) (hnodup n)).mpr fun e => ?_
  rw [← SortedMap.get_eq_some, ← SortedMap.get_eq_some, h]

theorem spreadInto_built (fields : List (Name × Value)) (m : SortedMap Name Value) :
    spreadInto fields (.built m.entries) = .built (addSpread fields m).entries := by
  induction fields generalizing m with
  | nil => rfl
  | cons e fields ih =>
    obtain ⟨k, v⟩ := e
    have hsame : MapRepr.containsKey k (.built m.entries) = (m.get k).isSome := rfl
    rw [spreadInto, hsame]
    by_cases hin : (m.get k).isSome
    · rw [if_pos hin, ih]
      unfold addSpread
      rw [List.foldl_cons, if_pos hin]
    · rw [if_neg hin]
      have hins : MapRepr.insert k v (.built m.entries) = .built (m.insert k v).entries := rfl
      rw [hins, ih]
      unfold addSpread
      rw [List.foldl_cons, if_neg hin]

section Maps

variable [Host] {env : Env} {sig : Signature}

def formEntry (env : Env) (sig : Signature) : MapEntryV → Except Err Formed
  | .entry key value =>
    match form env sig key with
    | .error e => .error e
    | .ok (.string label) => (form env sig value).map (.entry label)
    | .ok other => .error
        ((Err.new s!"map key must be a String, got {other.typeName} '{Host.shown other}'").withHint
          "use str to convert")
  | .spread v => (formMap v env sig).map .spread

theorem formEntry_entry {key value : Val} {f : Formed} :
    formEntry env sig (.entry key value) = .ok f ↔
      ∃ label v, form env sig key = .ok (.string label) ∧ form env sig value = .ok v ∧ f = .entry label v := by
  cases hkey : form env sig key with
  | error e => simp [formEntry, hkey]
  | ok k =>
    cases k with
    | string label =>
      simp only [formEntry, hkey, Fallible.map_eq_ok]
      constructor
      · rintro ⟨v, hv, rfl⟩
        exact ⟨label, v, rfl, hv, rfl⟩
      · rintro ⟨_, v, hlabel, hv, rfl⟩
        cases hlabel
        exact ⟨v, hv, rfl⟩
    | _ => simp [formEntry, hkey]

theorem formEntry_spread {v : Val} {f : Formed} :
    formEntry env sig (.spread v) = .ok f ↔ ∃ fields, formMap v env sig = .ok fields ∧ f = .spread fields := by
  unfold formEntry
  rw [Fallible.map_eq_ok]
  constructor
  · rintro ⟨fields, h, rfl⟩
    exact ⟨fields, h, rfl⟩
  · rintro ⟨fields, h, rfl⟩
    exact ⟨fields, h, rfl⟩

theorem mapRule_cons {entry : MapEntryV} {f : Formed} (h : formEntry env sig entry = .ok f) (rest : List MapEntryV)
    (seen : List Name) (m : SortedMap Name Value) :
    mapRule env sig (entry :: rest) seen (.built m.entries) =
      match f with
      | .entry label _ =>
        if label ∈ seen then .error (duplicateKey label)
        else mapRule env sig rest (label :: seen) (.built (f.add m).entries)
      | .spread _ => mapRule env sig rest seen (.built (f.add m).entries) := by
  cases entry with
  | entry key value =>
    obtain ⟨label, v, hkey, hv, rfl⟩ := formEntry_entry.mp h
    simp only [mapRule, hkey, hv]
    rfl
  | spread v =>
    obtain ⟨fields, hfields, rfl⟩ := formEntry_spread.mp h
    simp only [mapRule, hfields, spreadInto_built]
    rfl

theorem formEntry_of_mapRule {entry : MapEntryV} {rest : List MapEntryV} {seen : List Name} {m r : MapRepr}
    (h : mapRule env sig (entry :: rest) seen m = .ok r) : ∃ f, formEntry env sig entry = .ok f := by
  cases entry with
  | entry key value =>
    simp only [mapRule] at h
    split at h
    · cases h
    · next label hkey =>
        split at h
        · cases h
        · split at h
          · cases h
          · next v hv => exact ⟨_, formEntry_entry.mpr ⟨label, v, hkey, hv, rfl⟩⟩
    · cases h
  | spread v =>
    simp only [mapRule] at h
    split at h
    · cases h
    · next fields hfields => exact ⟨_, formEntry_spread.mpr ⟨fields, hfields, rfl⟩⟩

theorem mapRule_eq_ok {entries : List MapEntryV} {seen : List Name} {m : SortedMap Name Value} {r : MapRepr} :
    mapRule env sig entries seen (.built m.entries) = .ok r ↔
      ∃ fs, entries.mapM (formEntry env sig) = .ok fs ∧ (explicitKeys fs).Nodup ∧
        (∀ k ∈ explicitKeys fs, k ∉ seen) ∧ r = .built (fs.foldl Formed.add m).entries := by
  induction entries generalizing seen m with
  | nil =>
    simp only [mapRule, Except.ok.injEq, List.mapM_nil, pure, Except.pure]
    constructor
    · rintro rfl
      exact ⟨[], rfl, .nil, nofun, rfl⟩
    · rintro ⟨fs, rfl, -, -, rfl⟩
      rfl
  | cons entry entries ih =>
    constructor
    · intro h
      obtain ⟨f, hf⟩ := formEntry_of_mapRule h
      rw [mapRule_cons hf] at h
      cases f with
      | spread fields =>
        obtain ⟨fs, hfs, hnodup, hnew, hr⟩ := ih.mp h
        exact ⟨.spread fields :: fs, Fallible.mapM_eq_ok.mpr (.cons hf (Fallible.mapM_eq_ok.mp hfs)), hnodup,
          hnew, hr⟩
      | entry label v =>
        dsimp only at h
        split at h
        · cases h
        · next hfresh =>
            obtain ⟨fs, hfs, hnodup, hnew, hr⟩ := ih.mp h
            refine ⟨.entry label v :: fs, Fallible.mapM_eq_ok.mpr (.cons hf (Fallible.mapM_eq_ok.mp hfs)), ?_, ?_, hr⟩
            · exact List.nodup_cons.mpr ⟨fun hin => hnew label hin List.mem_cons_self, hnodup⟩
            · intro k hk
              rcases List.mem_cons.mp hk with rfl | hk
              · exact hfresh
              · exact fun hs => hnew k hk (List.mem_cons_of_mem _ hs)
    · intro ⟨all, hall, hnodup, hnew, hr⟩
      cases Fallible.mapM_eq_ok.mp hall with
      | @cons _ f _ fs hf hfs =>
        rw [mapRule_cons hf]
        cases f with
        | spread fields => exact ih.mpr ⟨fs, Fallible.mapM_eq_ok.mpr hfs, hnodup, hnew, hr⟩
        | entry label v =>
          have hkeys : explicitKeys (.entry label v :: fs) = label :: explicitKeys fs := rfl
          rw [hkeys] at hnodup hnew
          obtain ⟨hfresh, hrest⟩ := List.nodup_cons.mp hnodup
          dsimp only
          rw [if_neg (hnew label List.mem_cons_self)]
          refine ih.mpr ⟨fs, Fallible.mapM_eq_ok.mpr hfs, hrest, fun k hk hs => ?_, hr⟩
          rcases List.mem_cons.mp hs with rfl | hs
          · exact hfresh hk
          · exact hnew k (List.mem_cons_of_mem _ hk) hs

/-- Entries that all evaluate are refused for a key written twice, and for nothing else. -/
theorem mapRule_duplicate {entries : List MapEntryV} {fs : List Formed}
    (hfs : entries.mapM (formEntry env sig) = .ok fs) {seen : List Name} (m : SortedMap Name Value)
    (twice : ¬ ((explicitKeys fs).Nodup ∧ ∀ k ∈ explicitKeys fs, k ∉ seen)) :
    ∃ k ∈ explicitKeys fs, mapRule env sig entries seen (.built m.entries) = .error (duplicateKey k) := by
  induction entries generalizing fs seen m with
  | nil =>
    cases Fallible.mapM_eq_ok.mp hfs
    exact absurd ⟨.nil, nofun⟩ twice
  | cons entry entries ih =>
    cases Fallible.mapM_eq_ok.mp hfs with
    | @cons _ f _ fs hf hrest =>
      rw [mapRule_cons hf]
      cases f with
      | spread fields => exact ih (Fallible.mapM_eq_ok.mpr hrest) _ twice
      | entry label v =>
        have hkeys : explicitKeys (.entry label v :: fs) = label :: explicitKeys fs := rfl
        rw [hkeys] at twice ⊢
        dsimp only
        by_cases hseen : label ∈ seen
        · exact ⟨label, List.mem_cons_self, if_pos hseen⟩
        · rw [if_neg hseen]
          have hlater : ¬ ((explicitKeys fs).Nodup ∧ ∀ k ∈ explicitKeys fs, k ∉ label :: seen) := by
            intro ⟨hnodup, hnew⟩
            apply twice
            refine ⟨List.nodup_cons.mpr ⟨fun hin => hnew label hin List.mem_cons_self, hnodup⟩, fun k hk => ?_⟩
            rcases List.mem_cons.mp hk with rfl | hk
            · exact hseen
            · exact fun hs => hnew k hk (List.mem_cons_of_mem _ hs)
          obtain ⟨k, hk, herr⟩ := ih (Fallible.mapM_eq_ok.mpr hrest) _ hlater
          exact ⟨k, List.mem_cons_of_mem _ hk, herr⟩

theorem mapRule_plain {entries : List MapEntryV} {r : MapRepr} :
    mapRule env sig entries [] (.built []) = .ok r ↔
      ∃ fs, entries.mapM (formEntry env sig) = .ok fs ∧ (explicitKeys fs).Nodup ∧
        ∃ m : SortedMap Name Value, r = .built m.entries ∧ ∀ k, m.get k = plainGet fs k := by
  have hget {fs : List Formed} (nodup : (explicitKeys fs).Nodup) (k : Name) :
      (fs.foldl Formed.add SortedMap.empty).get k = plainGet fs k := by
    have general := @get_foldl_add fs SortedMap.empty (fun _ => none) (fun _ => none) (fun _ => rfl) nodup
      (fun _ _ => rfl) k
    simpa [plainGet] using general
  have hrule := @mapRule_eq_ok _ env sig entries [] SortedMap.empty r
  rw [SortedMap.entries_empty] at hrule
  rw [hrule]
  constructor
  · intro ⟨fs, hfs, hnodup, _, hr⟩
    exact ⟨fs, hfs, hnodup, _, hr, hget hnodup⟩
  · intro ⟨fs, hfs, hnodup, m, hr, hm⟩
    have heq : m = fs.foldl Formed.add SortedMap.empty := sorted_ext fun k => (hm k).trans (hget hnodup k).symm
    exact ⟨fs, hfs, hnodup, nofun, by rw [hr, heq]⟩

end Maps

/-! ## Record updates -/

theorem env_get_append (xs ys : List (Name × Value)) (k : Name) :
    Env.get k (xs ++ ys) = (Env.get k xs).or (Env.get k ys) := by
  unfold Env.get
  rw [List.find?_append]
  cases xs.find? fun e => e.1 = k <;> rfl

theorem env_get_none {es : List (Name × Value)} {k : Name} (h : k ∉ es.map Prod.fst) : Env.get k es = none := by
  unfold Env.get
  rw [List.find?_eq_none.mpr fun e he => ?_]
  · rfl
  · have hne : e.1 ≠ k := fun heq => h (heq ▸ List.mem_map_of_mem he)
    simpa using hne

theorem env_get_eq_some {es : List (Name × Value)} (nodup : (es.map Prod.fst).Nodup) {k : Name} {v : Value} :
    Env.get k es = some v ↔ (k, v) ∈ es := by
  induction es with
  | nil => simp [Env.get]
  | cons e es ih =>
    obtain ⟨key, w⟩ := e
    rw [List.map_cons, List.nodup_cons] at nodup
    rw [env_get_cons, List.mem_cons, ← ih nodup.2]
    by_cases hk : key = k
    · subst hk
      rw [if_pos rfl, env_get_none nodup.1]
      simp [eq_comm]
    · rw [if_neg hk]
      constructor
      · exact Or.inr
      · rintro (heq | h)
        · cases heq
          exact absurd rfl hk
        · exact h

theorem ofPairs_eq (es : List (Name × Value)) : ofPairs es = (SortedMap.ofList es).entries := by
  have general : ∀ m : SortedMap Name Value,
      es.foldl (fun m e => SortedMap.insertEntry e.1 e.2 m) m.entries =
        (es.foldl (fun m e => m.insert e.1 e.2) m).entries := by
    induction es with
    | nil => exact fun _ => rfl
    | cons e es ih => exact fun m => ih (m.insert e.1 e.2)
  exact general SortedMap.empty

theorem get_ofList {es : List (Name × Value)} (nodup : (es.map Prod.fst).Nodup) (k : Name) :
    (SortedMap.ofList es).get k = Env.get k es := by
  apply Option.ext
  intro v
  rw [SortedMap.get_eq_some, (SortedMap.perm_ofList nodup).mem_iff, env_get_eq_some nodup]

theorem get_baseFields (es : List (Name × Value)) (seen : List Name) (k : Name) :
    Env.get k (baseFields es seen) = if k ∈ seen then none else Env.get k es := by
  induction es generalizing seen with
  | nil => simp [baseFields, Env.get]
  | cons e es ih =>
    obtain ⟨key, v⟩ := e
    rw [baseFields]
    by_cases hkey : key ∈ seen
    · rw [if_pos hkey, ih, env_get_cons]
      by_cases hk : k ∈ seen
      · rw [if_pos hk, if_pos hk]
      · have hne : key ≠ k := fun he => hk (he ▸ hkey)
        rw [if_neg hk, if_neg hk, if_neg hne]
    · rw [if_neg hkey, env_get_cons, env_get_cons, ih]
      by_cases heq : key = k
      · subst heq
        simp [hkey]
      · simp [heq, Ne.symm heq]

theorem nodup_baseFields (es : List (Name × Value)) (seen : List Name) :
    ((baseFields es seen).map Prod.fst).Nodup ∧ ∀ k ∈ (baseFields es seen).map Prod.fst, k ∉ seen := by
  induction es generalizing seen with
  | nil => exact ⟨.nil, nofun⟩
  | cons e es ih =>
    obtain ⟨key, v⟩ := e
    rw [baseFields]
    by_cases hkey : key ∈ seen
    · rw [if_pos hkey]
      exact ih seen
    · rw [if_neg hkey, List.map_cons, List.nodup_cons]
      obtain ⟨hnodup, hnew⟩ := ih (key :: seen)
      refine ⟨⟨fun hin => hnew key hin List.mem_cons_self, hnodup⟩, fun k hk => ?_⟩
      rcases List.mem_cons.mp hk with rfl | hk
      · exact hkey
      · exact fun hs => hnew k hk (List.mem_cons_of_mem _ hs)

section Updates

variable {env : Env} {sig : Signature}

theorem keys_formFields {fields : List (Name × Val)} {formed : List (Name × Value)}
    (h : formFields env sig fields = .ok formed) : formed.map Prod.fst = fields.map Prod.fst := by
  induction fields generalizing formed with
  | nil =>
    cases h
    rfl
  | cons e fields ih =>
    obtain ⟨k, v⟩ := e
    simp only [formFields] at h
    split at h
    · cases h
    · obtain ⟨rest, hrest, rfl⟩ := Fallible.map_eq_ok.mp h
      rw [List.map_cons, List.map_cons, ih hrest]

/-- The fields written out evaluate, and no key is written twice. -/
theorem updateFields_eq_ok {fields : List (Name × Val)} {seen : List Name} {pairs : List (Name × Value)} :
    updateFields env sig fields seen = .ok pairs ↔
      formFields env sig fields = .ok pairs ∧ (fields.map Prod.fst).Nodup ∧ ∀ k ∈ fields.map Prod.fst, k ∉ seen := by
  induction fields generalizing seen pairs with
  | nil => simp [updateFields, formFields]
  | cons e fields ih =>
    obtain ⟨k, v⟩ := e
    rw [List.map_cons, List.nodup_cons]
    simp only [updateFields, formFields]
    by_cases hseen : k ∈ seen
    · rw [if_pos hseen]
      constructor
      · exact nofun
      · exact fun h => absurd hseen (h.2.2 k List.mem_cons_self)
    · rw [if_neg hseen]
      cases hv : form env sig v with
      | error e => simp
      | ok x =>
        simp only [Fallible.map_eq_ok, ih]
        constructor
        · rintro ⟨rest, ⟨hrest, hnodup, hnew⟩, rfl⟩
          refine ⟨⟨rest, hrest, rfl⟩, ⟨fun hin => hnew k hin List.mem_cons_self, hnodup⟩, fun y hy => ?_⟩
          rcases List.mem_cons.mp hy with rfl | hy
          · exact hseen
          · exact fun hs => hnew y hy (List.mem_cons_of_mem _ hs)
        · rintro ⟨⟨rest, hrest, rfl⟩, ⟨hfresh, hnodup⟩, hnew⟩
          refine ⟨rest, ⟨hrest, hnodup, fun y hy hs => ?_⟩, rfl⟩
          rcases List.mem_cons.mp hs with rfl | hs
          · exact hfresh hy
          · exact hnew y (List.mem_cons_of_mem _ hy) hs

/-- Fields that all evaluate are refused for a key written twice. -/
theorem updateFields_duplicate {fields : List (Name × Val)} {pairs : List (Name × Value)}
    (hform : formFields env sig fields = .ok pairs) {seen : List Name}
    (twice : ¬ ((fields.map Prod.fst).Nodup ∧ ∀ k ∈ fields.map Prod.fst, k ∉ seen)) :
    ∃ k ∈ fields.map Prod.fst, updateFields env sig fields seen = .error (duplicateKey k) := by
  induction fields generalizing pairs seen with
  | nil => exact absurd ⟨.nil, nofun⟩ twice
  | cons e fields ih =>
    obtain ⟨k, v⟩ := e
    rw [List.map_cons] at twice ⊢
    simp only [updateFields]
    by_cases hseen : k ∈ seen
    · exact ⟨k, List.mem_cons_self, if_pos hseen⟩
    · rw [if_neg hseen]
      simp only [formFields] at hform
      cases hv : form env sig v with
      | error e => simp [hv] at hform
      | ok x =>
        simp only [hv] at hform
        obtain ⟨rest, hrest, -⟩ := Fallible.map_eq_ok.mp hform
        have hlater : ¬ ((fields.map Prod.fst).Nodup ∧ ∀ y ∈ fields.map Prod.fst, y ∉ k :: seen) := by
          intro ⟨hnodup, hnew⟩
          apply twice
          refine ⟨List.nodup_cons.mpr ⟨fun hin => hnew k hin List.mem_cons_self, hnodup⟩, fun y hy => ?_⟩
          rcases List.mem_cons.mp hy with rfl | hy
          · exact hseen
          · exact fun hs => hnew y hy (List.mem_cons_of_mem _ hs)
        obtain ⟨y, hy, herr⟩ := ih hrest hlater
        refine ⟨y, List.mem_cons_of_mem _ hy, ?_⟩
        dsimp only
        rw [herr]
        rfl

/-- An update answers with the fields written out, else with the base. -/
theorem evalUpdate_plain {base : Val} {fields : List (Name × Val)} {v : Value} :
    evalUpdate base fields env sig = .ok v ↔
      ∃ pairs m, formFields env sig fields = .ok pairs ∧ formMap base env sig = .ok m ∧
        (fields.map Prod.fst).Nodup ∧ ∃ out : SortedMap Name Value, v = .map (.built out.entries) ∧
          ∀ k, out.get k = (Env.get k pairs).or (Env.get k m.iter) := by
  have hget {pairs : List (Name × Value)} (m : MapRepr) (hpairs : formFields env sig fields = .ok pairs)
      (nodup : (fields.map Prod.fst).Nodup) (k : Name) :
      (SortedMap.ofList (pairs ++ baseFields m.iter (fields.map Prod.fst))).get k =
        (Env.get k pairs).or (Env.get k m.iter) := by
    have hkeys := keys_formFields hpairs
    obtain ⟨hnodup, hnew⟩ := nodup_baseFields m.iter (fields.map Prod.fst)
    have hall : ((pairs ++ baseFields m.iter (fields.map Prod.fst)).map Prod.fst).Nodup := by
      rw [List.map_append, hkeys]
      refine List.nodup_append.mpr ⟨nodup, hnodup, fun x hx y hy heq => ?_⟩
      subst heq
      exact hnew x hy hx
    rw [get_ofList hall, env_get_append, get_baseFields]
    by_cases hk : k ∈ fields.map Prod.fst
    · rw [if_pos hk]
      have hin : k ∈ pairs.map Prod.fst := hkeys ▸ hk
      obtain ⟨⟨_, w⟩, hw, rfl⟩ := List.mem_map.mp hin
      rw [(env_get_eq_some (hkeys ▸ nodup)).mpr hw]
      rfl
    · rw [if_neg hk]
  unfold evalUpdate
  simp only [Fallible.bind_eq_ok, updateFields_eq_ok, pure, Except.pure, Except.ok.injEq, Value.ofFields, ofPairs_eq]
  constructor
  · rintro ⟨pairs, ⟨hpairs, hnodup, -⟩, m, hm, rfl⟩
    exact ⟨pairs, m, hpairs, hm, hnodup, _, rfl, hget m hpairs hnodup⟩
  · rintro ⟨pairs, m, hpairs, hm, hnodup, out, rfl, hout⟩
    refine ⟨pairs, ⟨hpairs, hnodup, nofun⟩, m, hm, ?_⟩
    have heq : out = SortedMap.ofList (pairs ++ baseFields m.iter (fields.map Prod.fst)) :=
      sorted_ext fun k => (hout k).trans (hget m hpairs hnodup k).symm
    rw [heq]

end Updates

/-! ## Collections -/

/-- Lists are their elements' parts concatenated, short cut or not; maps and updates answer with
what is written out, then with the spreads in order; and a key written twice is refused wherever
it stands. -/
theorem collections_plain [Host] (env : Env) (sig : Signature) :
    (∀ elems v, (evalList elems env sig = .ok v ↔ (listRule env sig elems (.built [])).map .list = .ok v) ∧
        (evalList elems env sig = .ok v ↔
          ∃ parts, elems.mapM (listPart env sig) = .ok parts ∧ v = .list (.built parts.flatten))) ∧
      (∀ entries r, mapRule env sig entries [] (.built []) = .ok r ↔
        ∃ fs, entries.mapM (formEntry env sig) = .ok fs ∧ (explicitKeys fs).Nodup ∧
          ∃ m : SortedMap Name Value, r = .built m.entries ∧ ∀ k, m.get k = plainGet fs k) ∧
      (∀ base fields v, evalUpdate base fields env sig = .ok v ↔
        ∃ pairs m, formFields env sig fields = .ok pairs ∧ formMap base env sig = .ok m ∧
          (fields.map Prod.fst).Nodup ∧ ∃ out : SortedMap Name Value, v = .map (.built out.entries) ∧
            ∀ k, out.get k = (Env.get k pairs).or (Env.get k m.iter)) ∧
      (∀ entries fs, entries.mapM (formEntry env sig) = .ok fs → ¬ (explicitKeys fs).Nodup →
        ∃ k ∈ explicitKeys fs, mapRule env sig entries [] (.built []) = .error (duplicateKey k)) ∧
      ∀ base fields pairs, formFields env sig fields = .ok pairs → ¬ (fields.map Prod.fst).Nodup →
        ∃ k ∈ fields.map Prod.fst, evalUpdate base fields env sig = .error (duplicateKey k) := by
  refine ⟨fun elems v => ⟨?_, evalList_eq_ok⟩, fun entries r => mapRule_plain, fun base fields v => evalUpdate_plain,
    fun entries fs hfs twice => ?_, fun base fields pairs hpairs twice => ?_⟩
  · rw [evalList_eq_ok, Fallible.map_eq_ok]
    simp only [listRule_eq_ok, List.nil_append]
    constructor
    · rintro ⟨parts, hparts, rfl⟩
      exact ⟨_, ⟨parts, hparts, rfl⟩, rfl⟩
    · rintro ⟨r, ⟨parts, hparts, rfl⟩, rfl⟩
      exact ⟨parts, hparts, rfl⟩
  · exact mapRule_duplicate hfs SortedMap.empty fun h => twice h.1
  · obtain ⟨k, hk, herr⟩ := @updateFields_duplicate env sig fields pairs hpairs [] fun h => twice h.1
    refine ⟨k, hk, ?_⟩
    unfold evalUpdate
    rw [herr]
    rfl

end Ral.Eval
