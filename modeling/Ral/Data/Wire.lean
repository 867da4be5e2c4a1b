import Ral.Core.Fallible
import Ral.Data.Datum

/-! # Data across the wire

Decoding an encoding gives the value back, and a datum that decodes is, up to
the order of fields, the encoding of what it decodes to. Each combinator keeps
both laws, and so does every type built from them.
-/

namespace Ral.Data

/-! ## The parts of a decoder -/

namespace FOValue

theorem present_present (p : Option FOValue) : present (present p) = present p := by
  cases p with
  | none => rfl
  | some v => cases v <;> rfl

theorem getD_present (v : FOValue) : (present (some v)).getD unit = v := by
  unfold present
  split
  · next h =>
      cases h
      rfl
  · rfl

theorem present_eq_some {p : Option FOValue} {v : FOValue} (h : present p = some v) : v ≠ unit := by
  rintro rfl
  unfold present at h
  split at h
  · cases h
  · next hne => exact hne h

theorem present_some {v : FOValue} (h : v ≠ unit) : present (some v) = some v := by
  unfold present
  split
  · next he =>
      cases he
      exact (h rfl).elim
  · rfl

theorem unit_same {v : FOValue} (h : Same unit v) : v = unit := by
  cases h
  rfl

theorem same_unit {v : FOValue} (h : Same v unit) : v = unit := by
  cases h
  rfl

theorem Same.payload {l : String} {p : Option FOValue} {e : FOValue}
    (h : Same e ((present p).getD unit)) : Same (Datum.tag l (some e)) (variant l p) := by
  unfold Datum.tag
  cases hp : present p with
  | none =>
    rw [hp] at h
    have he : e = unit := same_unit h
    subst he
    exact .bare rfl hp
  | some y =>
    rw [hp] at h
    have hy := present_eq_some hp
    have he : e ≠ unit := by
      rintro rfl
      exact hy (unit_same h)
    exact .carrying (by rw [present_present, present_some he]) hp h

end FOValue

namespace Datum
open FOValue Fallible

theorem untag_tag (l : String) (p : Option FOValue) : untag (tag l p) = some (l, present p) := by
  rw [tag, untag, present_present]

theorem untag_eq_some {v : FOValue} {l : String} {p : Option FOValue} (h : untag v = some (l, p)) :
    ∃ q, v = .variant l q ∧ present q = p := by
  cases v <;> simp only [untag, Option.some.injEq, Prod.mk.injEq, reduceCtorEq] at h
  obtain ⟨rfl, rfl⟩ := h
  exact ⟨_, rfl, rfl⟩

theorem orError_eq_ok {α : Type} {x : Option α} {why : String} {a : α} :
    orError x why = .ok a ↔ x = some a := by
  cases x <;> simp [orError]

theorem mapError_eq_ok {α : Type} {f : String → String} {x : Except String α} {a : α} :
    mapError f x = .ok a ↔ x = .ok a := by
  cases x <;> simp [mapError]

theorem collect_eq_ok {ε : Type} {n : ℕ} {α : Fin n → Type} {f : (i : Fin n) → Except ε (α i)}
    {g : (i : Fin n) → α i} : collect n f = .ok g ↔ ∀ i, f i = .ok (g i) := by
  induction n with
  | zero =>
    constructor
    · intro _ i
      exact i.elim0
    · intro _
      rw [collect]
      congr 1
      funext i
      exact i.elim0
  | succ n ih =>
    rw [collect]
    constructor
    · intro h
      cases h₀ : f 0 with
      | error e => simp [h₀] at h
      | ok a =>
        cases h₁ : collect n fun i => f i.succ with
        | error e => simp [h₀, h₁] at h
        | ok g' =>
          simp only [h₀, h₁, Except.ok.injEq] at h
          subst h
          intro i
          cases i using Fin.cases with
          | zero => exact h₀
          | succ i => exact ih.mp h₁ i
    · intro h
      have h₁ : collect n (fun i => f i.succ) = .ok fun i => g i.succ := ih.mpr fun i => h i.succ
      rw [h 0, h₁]
      exact congrArg Except.ok (Fin.cons_self_tail g)

theorem indexOf_eq_some {labels : List String} (hnd : labels.Nodup) {l : String}
    {i : Fin labels.length} : indexOf labels l = some i ↔ labels.get i = l := by
  constructor
  · intro h
    simpa using List.find?_some h
  · intro h
    cases hf : indexOf labels l with
    | none =>
      have hn := List.find?_eq_none.mp hf i (List.mem_finRange i)
      rw [h, beq_self_eq_true] at hn
      exact (hn rfl).elim
    | some j =>
      have hj : labels.get j = l := by simpa using List.find?_some hf
      rw [List.nodup_iff_injective_get.mp hnd (hj.trans h.symm)]

theorem exactKeysFrom_eq_ok {distance : Distance} {keys seen ks : List String} :
    exactKeysFrom distance keys seen ks = .ok () ↔
      (∀ k ∈ ks, k ∈ keys) ∧ ks.Nodup ∧ ∀ k ∈ ks, k ∉ seen := by
  induction ks generalizing seen with
  | nil => simp [exactKeysFrom]
  | cons k ks ih =>
    rw [exactKeysFrom]
    by_cases hk : k ∈ keys
    · by_cases hs : k ∈ seen
      · simp [hk, hs]
      · rw [if_neg (not_not.mpr hk), if_neg hs, ih]
        constructor
        · rintro ⟨hin, hnd, hout⟩
          refine ⟨?_, List.nodup_cons.mpr ⟨fun hm => ?_, hnd⟩, ?_⟩
          · simpa [hk] using hin
          · exact hout k hm (List.mem_cons_self ..)
          · intro k' hk'
            rcases List.mem_cons.mp hk' with rfl | hk'
            · exact hs
            · exact fun h => hout k' hk' (List.mem_cons_of_mem _ h)
        · rintro ⟨hin, hnd, hout⟩
          obtain ⟨hnew, hnd⟩ := List.nodup_cons.mp hnd
          refine ⟨fun k' hk' => hin k' (List.mem_cons_of_mem _ hk'), hnd, fun k' hk' hm => ?_⟩
          rcases List.mem_cons.mp hm with rfl | hm
          · exact hnew hk'
          · exact hout k' (List.mem_cons_of_mem _ hk') hm
    · simp [hk]

/-! ## Laws -/

/-- Both ways across the wire: the values that fit come back, and a datum that
decodes is the encoding of its value, where its maps are clean. -/
structure Lawful {α : Type} (d : Datum α) (fits : α → Prop) (clean : FOValue → Prop) : Prop where
  roundTrip : ∀ x, fits x → d.decode (d.encode x) = .ok x
  strict : ∀ v x, d.decode v = .ok x → clean v → Same (d.encode x) v

section Leaves

theorem lawful_unit : Lawful unit (fun _ => True) fun _ => True := by
  refine ⟨fun _ _ => rfl, fun v x h _ => ?_⟩
  cases v <;> simp only [unit, reduceCtorEq] at h
  exact .refl _

theorem lawful_integer (low high : ℤ) (hlow : -2 ^ 63 ≤ low) (hhigh : high ≤ 2 ^ 63 - 1)
    (outside : FOValue → I64 → String) (other : FOValue → String) :
    Lawful (integer low high hlow hhigh outside other) (fun _ => True) fun _ => True := by
  constructor
  · intro x _
    simp only [integer, asInt]
    rw [dif_pos x.2]
  · intro v x h _
    simp only [integer] at h
    cases v <;> simp only [asInt, reduceCtorEq] at h
    split at h
    · cases h
      exact .refl _
    · cases h

theorem lawful_i64 : Lawful i64 (fun _ => True) fun _ => True := by
  refine ⟨fun _ _ => rfl, fun v x h _ => ?_⟩
  cases v <;> simp [i64, orError, asInt] at h
  subst h
  exact .refl _

theorem lawful_u64 : Lawful u64 (fun n => n.1 ≤ 2 ^ 63 - 1) fun _ => True := by
  constructor
  · intro x hx
    have hmin : min x.1 (2 ^ 63 - 1) = x.1 := min_eq_left hx
    simp only [u64, asInt, hmin]
    rw [dif_pos x.2.1]
  · intro v x h _
    simp only [u64] at h
    cases v <;> simp only [asInt, reduceCtorEq] at h
    next n =>
      split at h
      · cases h
        have hmin : min n.1 (2 ^ 63 - 1) = n.1 := min_eq_left (by have hn := n.2; omega)
        simp only [u64, hmin]
        exact .refl _
      · cases h

theorem lawful_usize (bits : ℕ) :
    Lawful (usize bits) (fun n => n.1 ≤ 2 ^ 63 - 1) fun _ => True := by
  constructor
  · intro x hx
    have hmin : min x.1 (2 ^ 64 - 1) = x.1 := min_eq_left (by omega)
    refine bind_eq_ok.mpr ⟨⟨x.1, x.2.1, by omega⟩, ?_, dif_pos x.2.2⟩
    simp only [usize, hmin]
    exact lawful_u64.roundTrip ⟨x.1, x.2.1, by omega⟩ hx
  · intro v x h _
    obtain ⟨n, hn, h⟩ := bind_eq_ok.mp h
    split at h
    · cases h
      have hmin : min n.1 (2 ^ 64 - 1) = n.1 := min_eq_left (by have h := n.2; omega)
      simp only [usize, hmin]
      exact lawful_u64.strict v n hn trivial
    · cases h

theorem lawful_bool : Lawful bool (fun _ => True) fun _ => True := by
  refine ⟨fun _ _ => rfl, fun v x h _ => ?_⟩
  cases v <;> simp [bool, orError, asBool] at h
  subst h
  exact .refl _

theorem lawful_finite : Lawful finite (fun _ => True) fun _ => True := by
  refine ⟨fun _ _ => rfl, fun v x h _ => ?_⟩
  cases v <;> simp [finite] at h
  subst h
  exact .refl _

theorem lawful_string : Lawful string (fun _ => True) fun _ => True := by
  refine ⟨fun _ _ => rfl, fun v x h _ => ?_⟩
  cases v <;> simp [string, orError, asStr] at h
  subst h
  exact .refl _

theorem lawful_foValue : Lawful foValue (fun _ => True) fun _ => True := by
  refine ⟨fun _ _ => rfl, fun v x h _ => ?_⟩
  cases h
  exact .refl _

end Leaves

section Combinators
variable {α β : Type} {d : Datum α} {fits : α → Prop} {clean : FOValue → Prop}

theorem Lawful.strict_all (h : Lawful d fits clean) {vs : List FOValue} {xs : List α}
    (hd : List.Forall₂ (fun v x => d.decode v = .ok x) vs xs) (hc : ∀ v ∈ vs, clean v) :
    List.Forall₂ Same (xs.map d.encode) vs := by
  induction hd with
  | nil => exact .nil
  | cons hx _ ih =>
    refine .cons (h.strict _ _ hx (hc _ (List.mem_cons_self ..))) (ih fun v hv => ?_)
    exact hc v (List.mem_cons_of_mem _ hv)

theorem Lawful.option (h : Lawful d fits clean) : Lawful (option d) (fun x => ∀ y ∈ x, fits y)
    fun v => ∀ p, untag v = some ("some", p) → clean (p.getD .unit) := by
  constructor
  · intro x hx
    cases x with
    | none => rfl
    | some y =>
      simp only [Datum.option, untag_tag]
      rw [getD_present, h.roundTrip y (hx y rfl)]
      rfl
  · intro v x hd hc
    simp only [Datum.option] at hd
    split at hd
    · next hu =>
        cases hd
        obtain ⟨q, rfl, hq⟩ := untag_eq_some hu
        exact .bare rfl hq
    · next p hu =>
        obtain ⟨y, hy, rfl⟩ := map_eq_ok.mp hd
        obtain ⟨q, rfl, rfl⟩ := untag_eq_some hu
        exact Same.payload (h.strict _ y hy (hc _ hu))
    · cases hd

theorem Lawful.vec (h : Lawful d fits clean) : Lawful (vec d) (fun xs => ∀ x ∈ xs, fits x)
    fun v => ∀ items, v = .list items → ∀ x ∈ items, clean x := by
  have hdec : ∀ items xs, (Datum.vec d).decode (.list items) = .ok xs ↔
      List.Forall₂ (fun v x => d.decode v = .ok x) items xs := by
    intro items xs
    show (items.zipIdx.mapM _ : Except String _) = _ ↔ _
    rw [mapM_eq_ok]
    simp only [mapError_eq_ok]
    rw [← List.forall₂_map_left_iff (f := Prod.fst) (R := fun v x => d.decode v = .ok x),
      List.zipIdx_map_fst]
  constructor
  · intro xs hx
    rw [Datum.vec] at hdec ⊢
    refine (hdec _ _).mpr ?_
    rw [List.forall₂_map_left_iff, List.forall₂_same]
    exact fun x hmem => h.roundTrip x (hx x hmem)
  · intro v xs hd hc
    cases v with
    | list items =>
      have hall := (hdec items xs).mp hd
      exact .list (h.strict_all hall (hc items rfl))
    | _ => cases hd

theorem Lawful.pair {e : Datum β} {fits' : β → Prop} {clean' : FOValue → Prop}
    (h : Lawful d fits clean) (h' : Lawful e fits' clean') :
    Lawful (pair d e) (fun p => fits p.1 ∧ fits' p.2)
      fun v => ∀ x y, v = .list [x, y] → clean x ∧ clean' y := by
  constructor
  · intro p hp
    simp only [Datum.pair, asList]
    rw [h.roundTrip p.1 hp.1, h'.roundTrip p.2 hp.2]
    rfl
  · intro v p hd hc
    simp only [Datum.pair] at hd
    split at hd
    · next x y hv =>
        obtain ⟨a, ha, hd⟩ := bind_eq_ok.mp hd
        obtain ⟨b, hb, hd⟩ := bind_eq_ok.mp hd
        cases hd
        cases v <;> simp only [asList, reduceCtorEq, Option.some.injEq] at hv
        subst hv
        obtain ⟨hx, hy⟩ := hc x y rfl
        exact .list (.cons (h.strict x a ha hx) (.cons (h'.strict y b hb hy) .nil))
    · cases hd

theorem Lawful.btreeMap (h : Lawful d fits clean) :
    Lawful (btreeMap d) (fun m => ∀ e ∈ m.entries, fits e.2)
      fun v => ∀ es, v = .map es → (es.map Prod.fst).Nodup ∧ ∀ e ∈ es, clean e.2 := by
  -- Decoding is entry by entry, then in key order.
  have hdec : ∀ es m, (Datum.btreeMap d).decode (.map es) = .ok m ↔
      ∃ zs, List.Forall₂ (fun e z => d.decode e.2 = .ok z.2 ∧ e.1 = z.1) es zs ∧
        SortedMap.ofList zs = m := by
    intro es m
    show ((es.mapM _ : Except String _) >>= _) = _ ↔ _
    rw [bind_eq_ok]
    refine exists_congr fun zs => ?_
    rw [mapM_eq_ok, Except.ok.injEq]
    refine and_congr_left' (iff_of_eq ?_)
    congr 1
    funext e z
    rw [map_eq_ok]
    refine propext ⟨?_, fun h => ⟨z.2, mapError_eq_ok.mpr h.1, Prod.ext h.2 rfl⟩⟩
    rintro ⟨a, ha, rfl⟩
    exact ⟨mapError_eq_ok.mp ha, rfl⟩
  constructor
  · intro m hm
    refine (hdec _ _).mpr ⟨m.entries, ?_, m.ofList_entries⟩
    rw [List.forall₂_map_left_iff, List.forall₂_same]
    exact fun e he => ⟨h.roundTrip e.2 (hm e he), rfl⟩
  · intro v m hd hc
    cases v with
    | map es =>
      obtain ⟨zs, hall, rfl⟩ := (hdec es m).mp hd
      obtain ⟨hnd, hclean⟩ := hc es rfl
      have hkeys : es.map Prod.fst = zs.map Prod.fst := by
        rw [← List.forall₂_eq_eq_eq, List.forall₂_map_left_iff, List.forall₂_map_right_iff]
        exact hall.imp fun _ _ h => h.2
      have hvalues : List.Forall₂ (fun v x => d.decode v = .ok x) (es.map Prod.snd)
          (zs.map Prod.snd) := by
        rw [List.forall₂_map_left_iff, List.forall₂_map_right_iff]
        exact hall.imp fun _ _ h => h.1
      have hperm := SortedMap.perm_ofList (hkeys ▸ hnd)
      have hsame := h.strict_all hvalues fun v hv => by
        obtain ⟨e, he, rfl⟩ := List.mem_map.mp hv
        exact hclean e he
      refine .map (hperm.map _) (.refl _) ?_ ?_
      · rw [List.map_map, hkeys]
        rfl
      · rw [List.map_map] at hsame ⊢
        exact hsame
    | _ => cases hd

end Combinators

/-! ## Records -/

section Records
variable {keys : List String} {α : Fin keys.length → Type} {d : (i : Fin keys.length) → Datum (α i)}

theorem exactKeys_eq_ok {distance : Distance} {v : FOValue} : exactKeys distance v keys = .ok () ↔
    ∃ es, v = .map es ∧ (∀ k ∈ es.map Prod.fst, k ∈ keys) ∧ (es.map Prod.fst).Nodup := by
  cases v with
  | map es =>
    simp only [exactKeys, FOValue.map.injEq, exists_eq_left']
    rw [exactKeysFrom_eq_ok]
    simp
  | _ => simp [exactKeys]

theorem field_eq_ok {β : Type} {d : Datum β} {v : FOValue} {k : String} {x : β} :
    field d v k = .ok x ↔ ∃ y, v.field k = some y ∧ d.decode y = .ok x := by
  rw [field, bind_eq_ok]
  simp only [orError_eq_ok, mapError_eq_ok]

theorem field_map {es : List (String × FOValue)} (hnd : (es.map Prod.fst).Nodup) {k : String}
    {y : FOValue} : (FOValue.map es).field k = some y ↔ (k, y) ∈ es := by
  simp only [FOValue.field, Option.map_eq_some_iff]
  constructor
  · rintro ⟨e, he, rfl⟩
    have hk : e.1 = k := by simpa using List.find?_some he
    exact hk ▸ List.mem_of_find?_eq_some he
  · intro hmem
    cases hf : es.find? fun e => e.1 == k with
    | none =>
      have hn := List.find?_eq_none.mp hf _ hmem
      simp at hn
    | some e =>
      have hk : e.1 = k := by simpa using List.find?_some hf
      have he := List.mem_of_find?_eq_some hf
      have heq : e = (k, y) := List.inj_on_of_nodup_map hnd he hmem hk
      exact ⟨e, rfl, by rw [heq]⟩

theorem record_eq_ok {distance : Distance} {v : FOValue} {x : (i : Fin keys.length) → α i} :
    (record distance keys d).decode v = .ok x ↔ ∃ es, v = .map es ∧
      (∀ k ∈ es.map Prod.fst, k ∈ keys) ∧ (es.map Prod.fst).Nodup ∧
      ∀ i, ∃ y, (keys.get i, y) ∈ es ∧ (d i).decode y = .ok (x i) := by
  show (exactKeys distance v keys >>= _) = _ ↔ _
  rw [bind_eq_ok]
  simp only [collect_eq_ok, field_eq_ok]
  constructor
  · rintro ⟨_, hkeys, hfields⟩
    obtain ⟨es, rfl, hin, hnd⟩ := exactKeys_eq_ok.mp hkeys
    refine ⟨es, rfl, hin, hnd, fun i => ?_⟩
    obtain ⟨y, hy, hd⟩ := hfields i
    exact ⟨y, (field_map hnd).mp hy, hd⟩
  · rintro ⟨es, rfl, hin, hnd, hfields⟩
    refine ⟨(), exactKeys_eq_ok.mpr ⟨es, rfl, hin, hnd⟩, fun i => ?_⟩
    obtain ⟨y, hy, hd⟩ := hfields i
    exact ⟨y, (field_map hnd).mpr hy, hd⟩

theorem map_get_finRange (keys : List String) : (List.finRange keys.length).map keys.get = keys :=
  List.map_get_finRange keys

def declared (keys : List String) (y : Fin keys.length → FOValue) : List (String × FOValue) :=
  (List.finRange keys.length).map fun i => (keys.get i, y i)

theorem declared_keys (y : Fin keys.length → FOValue) : (declared keys y).map Prod.fst = keys := by
  rw [declared, List.map_map]
  exact map_get_finRange keys

theorem mem_declared {y : Fin keys.length → FOValue} {e : String × FOValue} :
    e ∈ declared keys y ↔ ∃ i, (keys.get i, y i) = e := by
  simp [declared]

theorem record_encode (distance : Distance) (d : (i : Fin keys.length) → Datum (α i)) (x : (i : Fin keys.length) → α i) :
    ∃ es, (record distance keys d).encode x = .map es ∧
      es.Perm (declared keys fun i => (d i).encode (x i)) :=
  ⟨_, rfl, List.mergeSort_perm ..⟩

theorem perm_declared (hnd : keys.Nodup) {es : List (String × FOValue)}
    (hin : ∀ k ∈ es.map Prod.fst, k ∈ keys) (hes : (es.map Prod.fst).Nodup)
    {y : Fin keys.length → FOValue} (hy : ∀ i, (keys.get i, y i) ∈ es) :
    (declared keys y).Perm es := by
  have hdecl : (declared keys y).Nodup := by
    refine List.Nodup.of_map Prod.fst ?_
    rwa [declared_keys]
  refine (List.perm_ext_iff_of_nodup hdecl (List.Nodup.of_map _ hes)).mpr fun e => ?_
  rw [mem_declared]
  constructor
  · rintro ⟨i, rfl⟩
    exact hy i
  · intro he
    obtain ⟨i, hi⟩ := List.mem_iff_get.mp (hin e.1 (List.mem_map_of_mem he))
    exact ⟨i, List.inj_on_of_nodup_map hes (hy i) he hi⟩

theorem lawful_record {distance : Distance} (hnd : keys.Nodup)
    {fits : (i : Fin keys.length) → α i → Prop} {clean : Fin keys.length → FOValue → Prop}
    (h : ∀ i, Lawful (d i) (fits i) (clean i)) :
    Lawful (record distance keys d) (fun x => ∀ i, fits i (x i))
      fun v => ∀ i y, v.field (keys.get i) = some y → clean i y := by
  constructor
  · intro x hx
    obtain ⟨es, he, hperm⟩ := record_encode distance d x
    have hkeys : (es.map Prod.fst).Perm keys := by
      have hp := hperm.map Prod.fst
      rwa [declared_keys] at hp
    rw [he]
    refine record_eq_ok.mpr ⟨es, rfl, fun k hk => hkeys.mem_iff.mp hk, hkeys.nodup_iff.mpr hnd,
      fun i => ⟨_, hperm.mem_iff.mpr (mem_declared.mpr ⟨i, rfl⟩), (h i).roundTrip (x i) (hx i)⟩⟩
  · intro v x hd hc
    obtain ⟨es, rfl, hin, hes, hfields⟩ := record_eq_ok.mp hd
    choose y hy hdec using hfields
    obtain ⟨es', he, hperm⟩ := record_encode distance d x
    rw [he]
    refine .map hperm (perm_declared hnd hin hes hy) ?_ ?_
    · rw [declared_keys, declared_keys]
    · rw [declared, declared, List.map_map, List.map_map, List.forall₂_map_left_iff,
        List.forall₂_map_right_iff, List.forall₂_same]
      exact fun i _ => (h i).strict _ _ (hdec i) (hc i _ ((field_map hes).mpr (hy i)))

end Records

/-! ## Tags -/

theorem lawful_label {labels : List String} (hnd : labels.Nodup) :
    Lawful (label labels) (fun _ => True) fun _ => True := by
  constructor
  · intro i _
    simp only [label, untag_tag, present]
    rw [(indexOf_eq_some hnd).mpr rfl]
    rfl
  · intro v i h _
    simp only [label] at h
    split at h
    · next l hu =>
        obtain ⟨q, rfl, hq⟩ := untag_eq_some hu
        have hi := (indexOf_eq_some hnd).mp (orError_eq_ok.mp h)
        subst hi
        exact .bare rfl hq
    · cases h

theorem lawful_variant {labels : List String} (hnd : labels.Nodup)
    {carries : Fin labels.length → Bool} {α : Fin labels.length → Type}
    {d : (i : Fin labels.length) → carries i = true → Datum (α i)}
    {fits : (i : Fin labels.length) → carries i = true → α i → Prop}
    {clean : (i : Fin labels.length) → carries i = true → FOValue → Prop}
    (h : ∀ i hi, Lawful (d i hi) (fits i hi) (clean i hi)) :
    Lawful (variant labels carries d) (fun x => ∀ hi, fits x.1 hi (x.2 hi))
      fun v => ∀ i hi p, untag v = some (labels.get i, p) → clean i hi (p.getD .unit) := by
  constructor
  · rintro ⟨i, x⟩ hx
    simp only [variant, untag_tag]
    rw [(indexOf_eq_some hnd).mpr rfl]
    by_cases hi : carries i = true
    · simp only [dif_pos hi]
      rw [getD_present, (h i hi).roundTrip (x hi) (hx hi)]
      rfl
    · simp only [dif_neg hi, present]
      congr 2
      funext hc
      exact (hi hc).elim
  · intro v x hd hc
    simp only [variant] at hd
    split at hd
    · cases hd
    · next l p hu =>
        obtain ⟨q, rfl, rfl⟩ := untag_eq_some hu
        split at hd
        · cases hd
        · next i hidx =>
            have hl := (indexOf_eq_some hnd).mp hidx
            subst hl
            split at hd
            · next hi =>
                obtain ⟨y, hy, rfl⟩ := map_eq_ok.mp (mapError_eq_ok.mp hd)
                simp only [variant, dif_pos hi]
                exact Same.payload ((h i hi).strict _ y hy (hc i hi _ hu))
            · next hi =>
                split at hd
                · next hp =>
                    cases hd
                    simp only [variant, dif_neg hi]
                    exact .bare rfl hp
                · cases hd

end Datum

/-! ## Types built from the combinators -/

/-- A type of wire data. Two fields of a record, or two arms of an enum, have two names. -/
inductive Shape
  | unit
  | u8
  | nonZeroU8
  | i32
  | u32
  | i64
  | u64
  | usize (bits : ℕ)
  | bool
  | finite
  | string
  | foValue
  | option (s : Shape)
  | vec (s : Shape)
  | pair (a b : Shape)
  | btreeMap (s : Shape)
  | record (keys : List String) (nodup : keys.Nodup) (field : Fin keys.length → Shape)
  | label (labels : List String) (nodup : labels.Nodup)
  | variant (labels : List String) (nodup : labels.Nodup) (carries : Fin labels.length → Bool)
      (payload : Fin labels.length → Shape)

namespace Shape
open FOValue Datum

def El : Shape → Type
  | unit => Unit
  | u8 => U8
  | nonZeroU8 => NonZeroU8
  | i32 => I32
  | u32 => U32
  | i64 => I64
  | u64 => U64
  | usize bits => Usize bits
  | bool => Bool
  | finite => Finite
  | string => String
  | foValue => FOValue
  | option s => Option s.El
  | vec s => List s.El
  | pair a b => a.El × b.El
  | btreeMap s => SortedMap String s.El
  | record keys _ fs => (i : Fin keys.length) → (fs i).El
  | label labels _ => Fin labels.length
  | variant labels _ carries payload =>
    (i : Fin labels.length) × (carries i = true → (payload i).El)

def datum (distance : Distance) : (s : Shape) → Datum s.El
  | unit => Datum.unit
  | u8 => Datum.u8
  | nonZeroU8 => Datum.nonZeroU8
  | i32 => Datum.i32
  | u32 => Datum.u32
  | i64 => Datum.i64
  | u64 => Datum.u64
  | usize bits => Datum.usize bits
  | bool => Datum.bool
  | finite => Datum.finite
  | string => Datum.string
  | foValue => Datum.foValue
  | option s => Datum.option (s.datum distance)
  | vec s => Datum.vec (s.datum distance)
  | pair a b => Datum.pair (a.datum distance) (b.datum distance)
  | btreeMap s => Datum.btreeMap (s.datum distance)
  | record keys _ fs => Datum.record distance keys fun i => (fs i).datum distance
  | label labels _ => Datum.label labels
  | variant labels _ carries payload =>
    Datum.variant labels carries fun i _ => (payload i).datum distance

/-- Unsigned integers up to the signed 64-bit maximum. -/
def Fits : (s : Shape) → s.El → Prop
  | u64 => fun n => n.1 ≤ 2 ^ 63 - 1
  | usize _ => fun n => n.1 ≤ 2 ^ 63 - 1
  | option s => fun x : Option s.El => ∀ y ∈ x, s.Fits y
  | vec s => fun xs : List s.El => ∀ x ∈ xs, s.Fits x
  | pair a b => fun p => a.Fits p.1 ∧ b.Fits p.2
  | btreeMap s => fun m => ∀ e ∈ m.entries, s.Fits e.2
  | record _ _ fs => fun x => ∀ i, (fs i).Fits (x i)
  | variant _ _ _ payload => fun x => ∀ hi, (payload x.1).Fits (x.2 hi)
  | _ => fun _ => True

/-- No key twice where the shape reads a map. -/
def Clean : Shape → FOValue → Prop
  | option s, v => ∀ p, untag v = some ("some", p) → s.Clean (p.getD .unit)
  | vec s, v => ∀ items, v = .list items → ∀ x ∈ items, s.Clean x
  | pair a b, v => ∀ x y, v = .list [x, y] → a.Clean x ∧ b.Clean y
  | btreeMap s, v => ∀ es, v = .map es → (es.map Prod.fst).Nodup ∧ ∀ e ∈ es, s.Clean e.2
  | record keys _ fs, v => ∀ i y, v.field (keys.get i) = some y → (fs i).Clean y
  | variant labels _ carries payload, v => ∀ i, carries i = true → ∀ p,
      untag v = some (labels.get i, p) → (payload i).Clean (p.getD .unit)
  | _, _ => True

theorem lawful (distance : Distance) (s : Shape) : Lawful (s.datum distance) s.Fits s.Clean := by
  induction s with
  | unit => exact lawful_unit
  | u8 | nonZeroU8 | i32 | u32 => exact lawful_integer _ _ (by decide) (by decide) _ _
  | i64 => exact lawful_i64
  | u64 => exact lawful_u64
  | usize bits => exact lawful_usize bits
  | bool => exact lawful_bool
  | finite => exact lawful_finite
  | string => exact lawful_string
  | foValue => exact lawful_foValue
  | option s ih => exact ih.option
  | vec s ih => exact ih.vec
  | pair a b iha ihb => exact iha.pair ihb
  | btreeMap s ih => exact ih.btreeMap
  | record keys nodup fs ih => exact lawful_record nodup ih
  | label labels nodup => exact lawful_label nodup
  | variant labels nodup carries payload ih => exact lawful_variant nodup fun i _ => ih i

/-- Values of every wire type come back from their encoding. A datum that decodes
is the encoding of what it decodes to, up to the order of fields and to a `Unit`
payload written out, where its maps name no key twice; and a record decodes only
from exactly its fields, each once. -/
theorem crosses_unchanged (distance : Distance) :
    (∀ (s : Shape) (x : s.El), s.Fits x →
      (s.datum distance).decode ((s.datum distance).encode x) = .ok x) ∧
    (∀ (s : Shape) (v : FOValue) (x : s.El), (s.datum distance).decode v = .ok x → s.Clean v →
      Same ((s.datum distance).encode x) v) ∧
    ∀ (keys : List String) (nodup : keys.Nodup) (fs : Fin keys.length → Shape) (v : FOValue)
      (x : (record keys nodup fs).El), ((record keys nodup fs).datum distance).decode v = .ok x →
      ∃ es, v = .map es ∧ (es.map Prod.fst).Perm keys := by
  refine ⟨fun s x hx => (s.lawful distance).roundTrip x hx,
    fun s v x hd hc => (s.lawful distance).strict v x hd hc, fun keys nodup fs v x hd => ?_⟩
  obtain ⟨es, rfl, hin, hes, hfields⟩ := record_eq_ok.mp hd
  choose y hy _ using hfields
  refine ⟨es, rfl, ?_⟩
  have hperm := (perm_declared nodup hin hes hy).map Prod.fst
  rw [declared_keys] at hperm
  exact hperm.symm

/-- A string with a count, and a record of one flag. -/
theorem crosses_unchanged_pair :
    let d := (Shape.pair .string .u64).datum fun _ _ => 3
    let v : FOValue := .list [.string "hits", .int ⟨5, by decide⟩]
    d.decode (d.encode ("hits", ⟨5, by decide⟩)) = .ok ("hits", ⟨5, by decide⟩) ∧
      Same (d.encode ("hits", ⟨5, by decide⟩)) v ∧
      ∃ es, FOValue.map [("on", .bool true)] = .map es ∧ (es.map Prod.fst).Perm ["on"] := by
  have h := crosses_unchanged fun _ _ => 3
  have hon : (((record ["on"] (by decide) fun _ => bool).datum fun _ _ => 3).decode
      (.map [("on", .bool true)])) = .ok (fun _ => true) := by
    apply record_eq_ok.mpr
    exact ⟨_, rfl, by simp, by simp, fun _ => ⟨.bool true, by simp, rfl⟩⟩
  refine ⟨h.1 (.pair .string .u64) _ ⟨trivial, ?_⟩, ?_, ?_⟩
  · show (5 : ℤ) ≤ 2 ^ 63 - 1
    decide
  · exact h.2.1 (.pair .string .u64) _ _ rfl fun _ _ _ => ⟨trivial, trivial⟩
  · exact h.2.2 ["on"] (by decide) (fun _ => .bool) _ (fun _ => true) hon

/-- A `Unit` payload written out and a key given twice are decoded, to values
encoded without them. -/
theorem decodes_unlike_its_encoding :
    ((Shape.option .unit).datum fun _ _ => 3).decode (.variant "some" (some .unit)) = .ok (some ()) ∧
    ((Shape.option .unit).datum fun _ _ => 3).encode (some ()) = .variant "some" none ∧
    ∃ m : SortedMap String Bool, ((Shape.btreeMap .bool).datum fun _ _ => 3).decode
        (.map [("a", .bool true), ("a", .bool false)]) = .ok m ∧
      ¬ Same (((Shape.btreeMap .bool).datum fun _ _ => 3).encode m)
        (.map [("a", .bool true), ("a", .bool false)]) := by
  refine ⟨rfl, rfl, SortedMap.ofList [("a", true), ("a", false)], rfl, fun h => ?_⟩
  replace h : Same (.map [("a", .bool false)]) (.map [("a", .bool true), ("a", .bool false)]) := h
  cases h with
  | map hx hy hkeys _ =>
    have hlen := congrArg List.length hkeys
    rw [List.length_map, List.length_map, ← hx.length_eq, hy.length_eq] at hlen
    cases hlen

end Shape

end Ral.Data
