import Ral.State.Scrub

/-! # Rebuilding a value

Over settled scopes a rebuild ends: with the value scrubbed, and with nothing new where no handle is
reached.
-/

namespace Ral.State

variable {Code Scheme : Type}

/-! ## Changes put into a copy -/

section Patching
variable {κ α : Type}

theorem foldl_put (put : List (κ × α) → κ → α → List (κ × α)) {keyed : List κ → Prop}
    (replaces : ∀ before k old new after, keyed ((before ++ (k, old) :: after).map Prod.fst) →
      put (before ++ (k, old) :: after) k new = before ++ (k, new) :: after)
    (f : α → Option α) (before entries : List (κ × α)) (h : keyed ((before ++ entries).map Prod.fst)) :
    (entries.flatMap fun e => ((f e.2).map fun new => (e.1, new)).toList).foldl
      (fun copy change => put copy change.1 change.2) (before ++ entries) =
      before ++ entries.map fun e => (e.1, (f e.2).getD e.2) := by
  induction entries generalizing before with
  | nil => simp
  | cons e rest ih =>
    obtain ⟨k, old⟩ := e
    cases hf : f old with
    | none =>
      have hrest := ih (before ++ [(k, old)]) (by simpa using h)
      simpa [hf] using hrest
    | some new =>
      have hrest := ih (before ++ [(k, new)]) (by simpa using h)
      simpa [hf, replaces before k old new rest h] using hrest

theorem insertEntry_replaces [LinearOrder κ] (before : List (κ × α)) (k : κ) (old new : α) (after : List (κ × α))
    (h : ((before ++ (k, old) :: after).map Prod.fst).Pairwise (· < ·)) :
    SortedMap.insertEntry k new (before ++ (k, old) :: after) = before ++ (k, new) :: after := by
  induction before with
  | nil => simp [SortedMap.insertEntry]
  | cons e before ih =>
    rw [List.cons_append, List.map_cons, List.pairwise_cons] at h
    have hlt : e.1 < k := h.1 k (by simp)
    rw [List.cons_append, SortedMap.insertEntry, if_neg hlt.not_gt, if_neg hlt.ne, ih h.2, List.cons_append]

theorem bind_replaces (before : Env Code Scheme) (name : String) (old new : Binding Code Scheme)
    (after : Env Code Scheme) (h : ((before ++ (name, old) :: after).map Prod.fst).Nodup) :
    Env.bind (before ++ (name, old) :: after) name new = before ++ (name, new) :: after := by
  have hmem : name ∈ (before ++ (name, old) :: after).map Prod.fst := by simp
  rw [List.map_append, List.map_cons, List.nodup_middle, List.nodup_cons] at h
  have hkept (part : Env Code Scheme) (hpart : name ∉ part.map Prod.fst) :
      part.map (fun e => if e.1 = name then (name, new) else e) = part := by
    refine List.map_congr_left (fun e he => if_neg fun hname => ?_) |>.trans part.map_id
    exact hpart (hname ▸ List.mem_map_of_mem he)
  rw [Env.bind, if_pos hmem, List.map_append, List.map_cons, if_pos rfl,
    hkept before fun h' => h.1 (List.mem_append_left _ h'), hkept after fun h' => h.1 (List.mem_append_right _ h')]

def changesFrom (f : α → Option α) : ℕ → List α → List (ℕ × α)
  | _, [] => []
  | i, v :: rest => ((f v).map fun new => (i, new)).toList ++ changesFrom f (i + 1) rest

theorem foldl_set (f : α → Option α) (before items : List α) :
    (changesFrom f before.length items).foldl (fun copy change => copy.set change.1 change.2) (before ++ items) =
      before ++ items.map fun v => (f v).getD v := by
  induction items generalizing before with
  | nil => simp [changesFrom]
  | cons v rest ih =>
    rw [changesFrom]
    cases hf : f v with
    | none =>
      have hrest := ih (before ++ [v])
      simpa [hf] using hrest
    | some new =>
      have hrest := ih (before ++ [new])
      simpa [hf] using hrest

theorem changesFrom_eq_nil {f : α → Option α} {i : ℕ} {items : List α} :
    changesFrom f i items = [] ↔ ∀ v ∈ items, f v = none := by
  induction items generalizing i with
  | nil => simp [changesFrom]
  | cons v rest ih => simp [changesFrom, ih]

theorem getD_patched {C K V : Type} (container : C) (changes : List (K × V)) (put : C → K → V → C) :
    (patched container changes put).getD container =
      changes.foldl (fun copy change => put copy change.1 change.2) container := by
  cases changes <;> rfl

theorem isSome_patched {C K V : Type} {container : C} {changes : List (K × V)} {put : C → K → V → C} :
    (patched container changes put).isSome ↔ changes ≠ [] := by
  cases changes <;> simp [patched]

theorem patched_put (put : List (κ × α) → κ → α → List (κ × α)) {keyed : List κ → Prop}
    (replaces : ∀ before k old new after, keyed ((before ++ (k, old) :: after).map Prod.fst) →
      put (before ++ (k, old) :: after) k new = before ++ (k, new) :: after)
    (f : α → Option α) (entries : List (κ × α)) (h : keyed (entries.map Prod.fst)) :
    (patched entries (entries.flatMap fun e => ((f e.2).map fun new => (e.1, new)).toList) put).getD entries =
      entries.map fun e => (e.1, (f e.2).getD e.2) :=
  (getD_patched _ _ _).trans (foldl_put put replaces f [] entries h)

theorem patched_set (f : α → Option α) (items : List α) :
    (patched items (changesFrom f 0 items) List.set).getD items = items.map fun v => (f v).getD v :=
  (getD_patched _ _ _).trans (foldl_set f [] items)

end Patching

/-! ## Scrubbing a value -/

namespace Value

theorem Plain.captured {v : Value Code} (hv : v.Plain) : v.capturedScopes = [] := by
  cases hv <;> rfl

theorem Plain.scrubbed {v : Value Code} (hv : v.Plain) (r : ℕ → ℕ) : v.scrubbed r = v := by
  cases hv <;> rfl

theorem Plain.rebuild {v : Value Code} (hv : v.Plain) (memo : Memo) : memo.rebuild v = .done none := by
  cases hv <;> rfl

theorem Plain.not_holds {v : Value Code} (hv : v.Plain) (heap : Heap Code Scheme) : ¬ Holds heap v := by
  intro h
  cases h with
  | captured ha _ _ _ => simp [hv.captured] at ha
  | _ => cases hv

def capture : Value Code → Option ℕ
  | listLiteral _ env | mapLiteral _ env | thunk _ env => some env
  | _ => none

theorem captured_of_capture {v : Value Code} {a : ℕ} (h : v.capture = some a) : v.capturedScopes = [a] := by
  cases v <;> cases h <;> rfl

theorem scrubbed_congr {r r' : ℕ → ℕ} (v : Value Code) (h : ∀ c ∈ v.capturedScopes, r c = r' c) :
    v.scrubbed r = v.scrubbed r' := by
  induction v using Value.induct with
  | list items ih =>
    rw [capturedScopes, capturedItems_eq] at h
    rw [scrubbed, scrubbed, scrubbedItems_eq, scrubbedItems_eq]
    refine congrArg list (List.map_congr_left fun v hv => ih v hv fun c hc => ?_)
    exact h c (List.mem_flatMap.mpr ⟨v, hv, hc⟩)
  | map entries ih =>
    rw [capturedScopes, capturedEntries_eq] at h
    rw [scrubbed, scrubbed, scrubbedEntries_eq, scrubbedEntries_eq]
    refine congrArg map (List.map_congr_left fun e he => ?_)
    rw [ih e he fun c hc => h c (List.mem_flatMap.mpr ⟨e, he, hc⟩)]
  | listLiteral node env => rw [scrubbed, scrubbed, h env (by simp [capturedScopes])]
  | mapLiteral node env => rw [scrubbed, scrubbed, h env (by simp [capturedScopes])]
  | thunk comp env => rw [scrubbed, scrubbed, h env (by simp [capturedScopes])]
  | variant label p ih => rw [scrubbed, scrubbed, ih h]
  | handle => rfl
  | plain v hv => rw [hv.scrubbed, hv.scrubbed]

end Value

/-! ## Reaching a handle -/

section Holding
variable {heap : Heap Code Scheme}

theorem holds_capture {v : Value Code} {a : ℕ} (h : v.capture = some a) : Holds heap v ↔ HoldsAt heap a := by
  have hscopes : v.capturedScopes = [a] := Value.captured_of_capture h
  constructor
  · intro hv
    cases hv with
    | captured ha henv he hv =>
      rw [hscopes] at ha
      cases List.mem_singleton.mp ha
      exact ⟨_, henv, _, he, hv⟩
    | _ => cases h
  · rintro ⟨env, henv, e, he, hv⟩
    exact .captured (by simp [hscopes]) henv he hv

theorem holds_list {items : List (Value Code)} : Holds heap (.list items) ↔ ∃ v ∈ items, Holds heap v := by
  constructor
  · intro h
    cases h with
    | item hv h => exact ⟨_, hv, h⟩
    | captured ha henv he h =>
      rw [Value.capturedScopes, Value.capturedItems_eq] at ha
      obtain ⟨v, hv, ha⟩ := List.mem_flatMap.mp ha
      exact ⟨v, hv, .captured ha henv he h⟩
  · rintro ⟨v, hv, h⟩
    exact .item hv h

theorem holds_map {entries : List (String × Value Code)} :
    Holds heap (.map entries) ↔ ∃ e ∈ entries, Holds heap e.2 := by
  constructor
  · intro h
    cases h with
    | entry he h => exact ⟨_, he, h⟩
    | captured ha henv he h =>
      rw [Value.capturedScopes, Value.capturedEntries_eq] at ha
      obtain ⟨e, hmem, ha⟩ := List.mem_flatMap.mp ha
      exact ⟨e, hmem, .captured ha henv he h⟩
  · rintro ⟨e, he, h⟩
    exact .entry he h

theorem holds_variant {label : String} {p : Value Code} :
    Holds heap (.variant label (some p)) ↔ Holds heap p := by
  constructor
  · intro h
    cases h with
    | payload h => exact h
    | captured ha henv he h => exact .captured ha henv he h
  · exact .payload

theorem not_holds_placeholder : ¬ Holds heap (Value.placeholder : Value Code) := by
  rw [Value.placeholder, holds_variant, holds_map]
  rintro ⟨e, he, h⟩
  cases List.mem_singleton.mp he
  exact (Value.Plain.string "handle").not_holds heap h

end Holding

/-! ## Rebuilding a value -/

namespace Memo

def address (memo : Memo) (scope : ℕ) : ℕ := (memo.seen scope).join.getD scope

/-- Settled, and replaced just when it reaches a handle. -/
def Judges (memo : Memo) (heap : Heap Code Scheme) (scope : ℕ) : Prop :=
  ∃ replacement, memo.seen scope = some replacement ∧ (replacement.isSome ↔ HoldsAt heap scope)

/-- What a rebuild comes to, if it comes to anything. -/
def new (memo : Memo) (v : Value Code) : Option (Value Code) :=
  match memo.rebuild v with
  | .done new => new
  | _ => none

/-- `v` rebuilds, to itself scrubbed, and to something new just when it reaches a handle. -/
structure Rebuilds (memo : Memo) (heap : Heap Code Scheme) (v : Value Code) : Prop where
  ends : memo.rebuild v = .done (memo.new v)
  scrubs : (memo.new v).getD v = v.scrubbed memo.address
  holds : (memo.new v).isSome ↔ Holds heap v

theorem Rebuilds.of_done {memo : Memo} {heap : Heap Code Scheme} {v : Value Code} (new : Option (Value Code))
    (h : memo.rebuild v = .done new) (hscrubs : new.getD v = v.scrubbed memo.address)
    (hholds : new.isSome ↔ Holds heap v) : Rebuilds memo heap v := by
  have hnew : memo.new v = new := by rw [Memo.new, h]
  exact ⟨by rw [h, hnew], by rwa [hnew], by rwa [hnew]⟩

section Judging
variable {memo : Memo} {heap : Heap Code Scheme}

theorem Judges.replacement {a : ℕ} (h : Judges memo heap a) : ∃ replacement,
    memo.replacement a = .done replacement ∧ replacement.getD a = memo.address a ∧
      (replacement.isSome ↔ HoldsAt heap a) := by
  obtain ⟨replacement, hseen, hholds⟩ := h
  exact ⟨replacement, by rw [Memo.replacement, hseen], by rw [address, hseen]; rfl, hholds⟩

theorem rebuilds_capture {a : ℕ} {v : Value Code} (build : ℕ → Value Code) (h : Judges memo heap a)
    (hcapture : v.capture = some a) (hv : v = build a)
    (hrebuild : memo.rebuild v = (memo.replacement a).bind fun env => .done (env.map build))
    (hscrub : v.scrubbed memo.address = build (memo.address a)) : Rebuilds memo heap v := by
  obtain ⟨replacement, hdone, haddress, hjudged⟩ := h.replacement
  rw [hdone] at hrebuild
  apply Rebuilds.of_done _ hrebuild
  · rw [hscrub, ← haddress, hv]
    cases replacement <;> rfl
  · rw [Option.isSome_map, holds_capture hcapture]
    exact hjudged

theorem rebuildItems_eq {items : List (Value Code)} (h : ∀ v ∈ items, memo.rebuild v = .done (memo.new v)) (i : ℕ) :
    memo.rebuildItems i items = .done (changesFrom memo.new i items) := by
  induction items generalizing i with
  | nil => rfl
  | cons v rest ih =>
    have hrest := ih (fun w hw => h w (List.mem_cons_of_mem v hw)) (i + 1)
    rw [rebuildItems, h v List.mem_cons_self, hrest]
    rfl

theorem rebuildEntries_eq {entries : List (String × Value Code)}
    (h : ∀ e ∈ entries, memo.rebuild e.2 = .done (memo.new e.2)) :
    memo.rebuildEntries entries =
      .done (entries.flatMap fun e => ((memo.new e.2).map fun new => (e.1, new)).toList) := by
  induction entries with
  | nil => rfl
  | cons e rest ih =>
    have hrest := ih fun w hw => h w (List.mem_cons_of_mem e hw)
    rw [rebuildEntries, h e List.mem_cons_self, hrest]
    rfl

theorem rebuilds {v : Value Code} (formed : v.Formed) (h : ∀ c ∈ v.capturedScopes, Judges memo heap c) :
    Rebuilds memo heap v := by
  induction v using Value.induct with
  | list items ih =>
    rw [Value.capturedScopes, Value.capturedItems_eq] at h
    rw [Value.Formed, Value.formedItems_iff] at formed
    have hitems : ∀ v ∈ items, Rebuilds memo heap v := fun v hv =>
      ih v hv (formed v hv) fun c hc => h c (List.mem_flatMap.mpr ⟨v, hv, hc⟩)
    have hchanges := rebuildItems_eq (fun v hv => (hitems v hv).ends) 0
    have hscrubbed : items.map (fun v => (memo.new v).getD v) = Value.scrubbedItems memo.address items := by
      rw [Value.scrubbedItems_eq]
      exact List.map_congr_left fun v hv => (hitems v hv).scrubs
    apply Rebuilds.of_done ((patched items (changesFrom memo.new 0 items) List.set).map .list)
    · rw [rebuild, hchanges]
      rfl
    · rw [Value.scrubbed, ← hscrubbed, ← patched_set]
      cases patched items (changesFrom memo.new 0 items) List.set <;> rfl
    · rw [Option.isSome_map, isSome_patched, Ne, changesFrom_eq_nil, holds_list]
      push Not
      exact exists_congr fun v => and_congr_right fun hv => by
        rw [← (hitems v hv).holds, Option.isSome_iff_ne_none]
  | map entries ih =>
    rw [Value.capturedScopes, Value.capturedEntries_eq] at h
    rw [Value.Formed, Value.formedEntries_iff] at formed
    have hentries : ∀ e ∈ entries, Rebuilds memo heap e.2 := fun e he =>
      ih e he (formed.2 e he) fun c hc => h c (List.mem_flatMap.mpr ⟨e, he, hc⟩)
    have hchanges := rebuildEntries_eq fun e he => (hentries e he).ends
    have hscrubbed : entries.map (fun e => (e.1, (memo.new e.2).getD e.2)) =
        Value.scrubbedEntries memo.address entries := by
      rw [Value.scrubbedEntries_eq]
      exact List.map_congr_left fun e he => by rw [(hentries e he).scrubs]
    apply Rebuilds.of_done ((patched entries (entries.flatMap fun e => ((memo.new e.2).map fun new =>
      (e.1, new)).toList) fun entries key new => SortedMap.insertEntry key new entries).map .map)
    · rw [rebuild, hchanges]
      rfl
    · rw [Value.scrubbed, ← hscrubbed, ← patched_put (fun entries key new => SortedMap.insertEntry key new entries)
        insertEntry_replaces memo.new entries (List.pairwise_map.mpr formed.1)]
      cases patched entries _ _ <;> rfl
    · rw [Option.isSome_map, isSome_patched, Ne, List.flatMap_eq_nil_iff, holds_map]
      push Not
      refine exists_congr fun e => and_congr_right fun he => ?_
      rw [← (hentries e he).holds]
      cases memo.new e.2 <;> simp
  | listLiteral node env =>
    exact rebuilds_capture (.listLiteral node) (h env (List.mem_singleton_self env)) rfl rfl (by rw [rebuild]; rfl) rfl
  | mapLiteral node env =>
    exact rebuilds_capture (.mapLiteral node) (h env (List.mem_singleton_self env)) rfl rfl (by rw [rebuild]; rfl) rfl
  | thunk comp env =>
    exact rebuilds_capture (.thunk comp) (h env (List.mem_singleton_self env)) rfl rfl (by rw [rebuild]; rfl) rfl
  | variant label p ih =>
    obtain ⟨hends, hscrubs, hholds⟩ := ih formed h
    apply Rebuilds.of_done ((memo.new p).map fun payload => .variant label (some payload))
    · rw [rebuild, hends]
      rfl
    · rw [Value.scrubbed, ← hscrubs]
      cases memo.new p <;> rfl
    · rw [Option.isSome_map, holds_variant]
      exact hholds
  | handle =>
    refine Rebuilds.of_done (some .placeholder) (by rw [rebuild]) rfl ?_
    exact ⟨fun _ => .handle, fun _ => rfl⟩
  | plain v hv =>
    refine Rebuilds.of_done none (hv.rebuild memo) (hv.scrubbed memo.address).symm ?_
    exact ⟨fun h => absurd h Bool.false_ne_true, fun h => absurd h (hv.not_holds heap)⟩

def newBinding (memo : Memo) (b : Binding Code Scheme) : Option (Binding Code Scheme) :=
  (memo.new b.value).map fun value => ⟨value, b.scheme⟩

theorem rebuildBindings_eq {env : Env Code Scheme} (h : ∀ e ∈ env, memo.rebuild e.2.value = .done (memo.new e.2.value)) :
    memo.rebuildBindings env = .done (env.flatMap fun e => ((memo.newBinding e.2).map fun new => (e.1, new)).toList) := by
  induction env with
  | nil => rfl
  | cons e rest ih =>
    have hrest := ih fun w hw => h w (List.mem_cons_of_mem e hw)
    rw [rebuildBindings, h e List.mem_cons_self, hrest]
    change Outcome.done _ = _
    rw [List.flatMap_cons, newBinding, Option.map_map]
    rfl

theorem patches {env : Env Code Scheme} (distinct : (env.map Prod.fst).Nodup)
    (formed : ∀ e ∈ env, e.2.value.Formed) (h : ∀ c ∈ env.captured, Judges memo heap c) : ∃ changes,
    memo.rebuildBindings env = .done changes ∧
      (patched env changes Env.bind).getD env = env.scrubbed memo.address ∧
      ((patched env changes Env.bind).isSome ↔ ∃ e ∈ env, Holds heap e.2.value) := by
  have hbindings : ∀ e ∈ env, Rebuilds memo heap e.2.value := fun e he =>
    rebuilds (formed e he) fun c hc => h c (List.mem_flatMap.mpr ⟨e, he, hc⟩)
  refine ⟨_, rebuildBindings_eq fun e he => (hbindings e he).ends, ?_, ?_⟩
  · rw [patched_put Env.bind bind_replaces memo.newBinding env distinct]
    refine List.map_congr_left fun e he => ?_
    have hscrubs := (hbindings e he).scrubs
    rw [Binding.scrubbed, ← hscrubs, newBinding]
    cases memo.new e.2.value <;> rfl
  · rw [isSome_patched, Ne, List.flatMap_eq_nil_iff]
    push Not
    refine exists_congr fun e => and_congr_right fun he => ?_
    rw [← (hbindings e he).holds, newBinding]
    cases memo.new e.2.value <;> simp

end Judging

end Memo

end Ral.State
