import Ral.State.Rebuilt

/-! # What the scrub leaves

Opening a scope settles all it captures before its own close comes up, so no rebuild meets an
unsettled scope. Settled scopes stand in the heap as their scrubbed selves.
-/

namespace Ral.State

variable {Code Scheme : Type}

namespace Value

/-- A value that reaches no handle is as it was. -/
theorem scrubbed_of_not_holds {heap : Heap Code Scheme} {r : ℕ → ℕ} {v : Value Code} (h : ¬ Holds heap v)
    (hr : ∀ c ∈ v.capturedScopes, ¬ HoldsAt heap c → r c = c) : v.scrubbed r = v := by
  induction v using Value.induct with
  | list items ih =>
    rw [capturedScopes, capturedItems_eq] at hr
    rw [holds_list] at h
    rw [scrubbed, scrubbedItems_eq]
    refine congrArg list ((List.map_congr_left fun v hv => ?_).trans items.map_id)
    exact ih v hv (fun hv' => h ⟨v, hv, hv'⟩) fun c hc => hr c (List.mem_flatMap.mpr ⟨v, hv, hc⟩)
  | map entries ih =>
    rw [capturedScopes, capturedEntries_eq] at hr
    rw [holds_map] at h
    rw [scrubbed, scrubbedEntries_eq]
    refine congrArg map ((List.map_congr_left fun e he => ?_).trans entries.map_id)
    rw [ih e he (fun he' => h ⟨e, he, he'⟩) fun c hc => hr c (List.mem_flatMap.mpr ⟨e, he, hc⟩)]
    rfl
  | listLiteral node env => rw [scrubbed, hr env (List.mem_singleton_self env) ((holds_capture rfl).not.mp h)]
  | mapLiteral node env => rw [scrubbed, hr env (List.mem_singleton_self env) ((holds_capture rfl).not.mp h)]
  | thunk comp env => rw [scrubbed, hr env (List.mem_singleton_self env) ((holds_capture rfl).not.mp h)]
  | variant label p ih => rw [scrubbed, ih (holds_variant.not.mp h) hr]
  | handle => exact absurd .handle h
  | plain v hv => exact hv.scrubbed r

/-- A scrubbed value reaches a handle only through a scope. -/
theorem not_holds_scrubbed {heap : Heap Code Scheme} {r : ℕ → ℕ} {v : Value Code}
    (h : ∀ c ∈ v.capturedScopes, ¬ HoldsAt heap (r c)) : ¬ Holds heap (v.scrubbed r) := by
  induction v using Value.induct with
  | list items ih =>
    rw [capturedScopes, capturedItems_eq] at h
    rw [scrubbed, scrubbedItems_eq, holds_list]
    rintro ⟨w, hw, hholds⟩
    obtain ⟨v, hv, rfl⟩ := List.mem_map.mp hw
    exact ih v hv (fun c hc => h c (List.mem_flatMap.mpr ⟨v, hv, hc⟩)) hholds
  | map entries ih =>
    rw [capturedScopes, capturedEntries_eq] at h
    rw [scrubbed, scrubbedEntries_eq, holds_map]
    rintro ⟨w, hw, hholds⟩
    obtain ⟨e, he, rfl⟩ := List.mem_map.mp hw
    exact ih e he (fun c hc => h c (List.mem_flatMap.mpr ⟨e, he, hc⟩)) hholds
  | listLiteral node env => exact (holds_capture rfl).not.mpr (h env (List.mem_singleton_self env))
  | mapLiteral node env => exact (holds_capture rfl).not.mpr (h env (List.mem_singleton_self env))
  | thunk comp env => exact (holds_capture rfl).not.mpr (h env (List.mem_singleton_self env))
  | variant label p ih =>
    rw [scrubbed, holds_variant]
    exact ih h
  | handle => exact not_holds_placeholder
  | plain v hv =>
    rw [hv.scrubbed]
    exact hv.not_holds heap

end Value

/-! ## Fuel -/

def Ends {α : Type} (f : ℕ → Outcome α) (a : α) : Prop := ∃ n, ∀ fuel, n ≤ fuel → f fuel = .done a

namespace Ends

variable {α β : Type}

theorem const (a : α) : Ends (fun _ => .done a) a := ⟨0, fun _ _ => rfl⟩

theorem bind {f : ℕ → Outcome α} {g : ℕ → α → Outcome β} {a : α} {b : β} (hf : Ends f a)
    (hg : Ends (fun fuel => g fuel a) b) : Ends (fun fuel => f fuel >>= g fuel) b := by
  obtain ⟨n, hn⟩ := hf
  obtain ⟨m, hm⟩ := hg
  refine ⟨max n m, fun fuel hfuel => ?_⟩
  have hdone := hn fuel (by omega)
  have hnext := hm fuel (by omega)
  change (f fuel).bind (g fuel) = .done b
  rw [hdone]
  exact hnext

end Ends

/-! ## The memo only grows -/

namespace Memo

theorem seen_snoc (memo : Memo) (a : ℕ) (replacement : Option ℕ) (b : ℕ) :
    seen (memo ++ [(a, replacement)]) b = (memo.seen b).or (if a = b then some replacement else none) := by
  unfold seen
  rw [List.find?_append]
  cases memo.find? fun e => e.1 = b with
  | some e => rfl
  | none => by_cases h : a = b <;> simp [h]

theorem seen_snoc_self (memo : Memo) (a : ℕ) (replacement : Option ℕ) :
    (seen (memo ++ [(a, replacement)]) a).isSome := by
  rw [seen_snoc, if_pos rfl]
  cases memo.seen a <;> rfl

def Extends (memo memo' : Memo) : Prop := ∀ a replacement, memo.seen a = some replacement → memo'.seen a = some replacement

namespace Extends

variable {a b c : Memo}

theorem refl (memo : Memo) : memo.Extends memo := fun _ _ h => h

theorem trans (hab : a.Extends b) (hbc : b.Extends c) : a.Extends c := fun i _ h => hbc i _ (hab i _ h)

theorem snoc (memo : Memo) (i : ℕ) (replacement : Option ℕ) : memo.Extends (memo ++ [(i, replacement)]) := by
  intro j old h
  rw [seen_snoc, h]
  rfl

theorem isSome (hab : a.Extends b) {i : ℕ} (h : (a.seen i).isSome) : (b.seen i).isSome := by
  obtain ⟨replacement, hseen⟩ := Option.isSome_iff_exists.mp h
  rw [hab i replacement hseen]
  rfl

theorem address (hab : a.Extends b) {i : ℕ} (h : (a.seen i).isSome) : b.address i = a.address i := by
  obtain ⟨replacement, hseen⟩ := Option.isSome_iff_exists.mp h
  rw [Memo.address, Memo.address, hseen, hab i replacement hseen]

end Extends

end Memo

/-! ## Settled scopes -/

namespace Scrub

/-- Of a scope settled: it is the session's, all it captures is settled, and it is replaced just when
it reaches a handle, by a new scope that is itself scrubbed. -/
structure Settled (heap : Heap Code Scheme) (s : Scrub Code Scheme) (a : ℕ) (replacement : Option ℕ)
    (env : Env Code Scheme) : Prop where
  stands : heap[a]? = some env
  below : ∀ c ∈ env.captured, (s.memo.seen c).isSome
  judged : replacement.isSome ↔ HoldsAt heap a
  fresh : ∀ a' ∈ replacement, heap.length ≤ a' ∧ s.heap[a']? = some (env.scrubbed s.memo.address)

/-- The heap is the session's with scopes added, and every scope seen is settled. -/
structure Sound (heap : Heap Code Scheme) (s : Scrub Code Scheme) : Prop where
  kept : heap <+: s.heap
  settled : ∀ a replacement, s.memo.seen a = some replacement → ∃ env, Settled heap s a replacement env

/-- Another scrub later: scopes are added and what is settled stays so. -/
structure Grown (s s' : Scrub Code Scheme) : Prop where
  heap : s.heap <+: s'.heap
  memo : s.memo.Extends s'.memo

namespace Grown

variable {s s' t : Scrub Code Scheme}

theorem refl (s : Scrub Code Scheme) : Grown s s := ⟨List.prefix_rfl, .refl _⟩

theorem trans (h : Grown s s') (h' : Grown s' t) : Grown s t := ⟨h.heap.trans h'.heap, h.memo.trans h'.memo⟩

theorem scrubbed (h : Grown s s') {env : Env Code Scheme} (below : ∀ c ∈ env.captured, (s.memo.seen c).isSome) :
    env.scrubbed s'.memo.address = env.scrubbed s.memo.address := by
  refine List.map_congr_left fun e he => ?_
  have hvalue : e.2.value.scrubbed s'.memo.address = e.2.value.scrubbed s.memo.address :=
    Value.scrubbed_congr _ fun c hc => h.memo.address (below c (List.mem_flatMap.mpr ⟨e, he, hc⟩))
  rw [Binding.scrubbed, Binding.scrubbed, hvalue]

theorem getElem? (h : Grown s s') {a : ℕ} {env : Env Code Scheme} (ha : s.heap[a]? = some env) :
    s'.heap[a]? = some env := by
  obtain ⟨added, hadded⟩ := h.heap
  rw [← hadded, List.getElem?_append_left (List.getElem?_eq_some_iff.mp ha).1]
  exact ha

theorem settled (h : Grown s s') {heap : Heap Code Scheme} {a : ℕ} {replacement : Option ℕ}
    {env : Env Code Scheme} (hs : Settled heap s a replacement env) : Settled heap s' a replacement env where
  stands := hs.stands
  below c hc := h.memo.isSome (hs.below c hc)
  judged := hs.judged
  fresh a' ha' := by
    obtain ⟨hnew, hat⟩ := hs.fresh a' ha'
    rw [h.scrubbed hs.below]
    exact ⟨hnew, h.getElem? hat⟩

end Grown

section Visiting
variable {heap : Heap Code Scheme} {s : Scrub Code Scheme}

theorem Sound.initial (heap : Heap Code Scheme) : Sound heap ⟨heap, []⟩ where
  kept := List.prefix_rfl
  settled a replacement h := by cases h

theorem Sound.judges (sound : Sound heap s) {c : ℕ} (h : (s.memo.seen c).isSome) : s.memo.Judges heap c := by
  obtain ⟨replacement, hseen⟩ := Option.isSome_iff_exists.mp h
  obtain ⟨env, hsettled⟩ := sound.settled c replacement hseen
  exact ⟨replacement, hseen, hsettled.judged⟩

theorem Sound.getD (sound : Sound heap s) {a : ℕ} {env : Env Code Scheme} (ha : heap[a]? = some env) :
    s.heap.getD a [] = env := by
  obtain ⟨added, hadded⟩ := sound.kept
  rw [List.getD_eq_getElem?_getD, ← hadded, List.getElem?_append_left (List.getElem?_eq_some_iff.mp ha).1, ha]
  rfl

theorem Sound.remember (sound : Sound heap s) {a : ℕ} {replacement : Option ℕ} {env : Env Code Scheme}
    {later : Heap Code Scheme} (kept : s.heap <+: later)
    (hs : Settled heap ⟨later, s.memo⟩ a replacement env) :
    Sound heap ⟨later, s.memo ++ [(a, replacement)]⟩ ∧ Grown s ⟨later, s.memo ++ [(a, replacement)]⟩ := by
  have hgrown : Grown s ⟨later, s.memo ++ [(a, replacement)]⟩ := ⟨kept, .snoc _ _ _⟩
  refine ⟨⟨sound.kept.trans kept, ?_⟩, hgrown⟩
  intro b found hb
  rw [Memo.seen_snoc, Option.or_eq_some_iff] at hb
  rcases hb with hb | ⟨-, hb⟩
  · obtain ⟨env, hsettled⟩ := sound.settled b found hb
    exact ⟨env, hgrown.settled hsettled⟩
  · split at hb
    · next hab =>
      cases hb
      subst hab
      have hlater : Grown ⟨later, s.memo⟩ ⟨later, s.memo ++ [(a, replacement)]⟩ := ⟨List.prefix_rfl, .snoc _ _ _⟩
      exact ⟨env, hlater.settled hs⟩
    · cases hb

theorem Sound.closes (hheap : heap.Sound) (sound : Sound heap s) {a : ℕ} {env : Env Code Scheme}
    (ha : heap[a]? = some env) (below : ∀ c ∈ env.captured, (s.memo.seen c).isSome) : ∃ s',
    s.visit (.closes a) = .done (s', []) ∧ Sound heap s' ∧ Grown s s' ∧ (s'.memo.seen a).isSome := by
  have hmem : env ∈ heap := List.mem_of_getElem? ha
  have hjudges : ∀ c ∈ env.captured, s.memo.Judges heap c := fun c hc => sound.judges (below c hc)
  obtain ⟨changes, hchanges, hpatched, hholds⟩ := Memo.patches (hheap.distinct env hmem) (hheap.formed env hmem) hjudges
  have hjudged : (∃ e ∈ env, Holds heap e.2.value) ↔ HoldsAt heap a :=
    ⟨fun h => ⟨env, ha, h⟩, fun h => Option.some.inj (ha.symm.trans h.choose_spec.1) ▸ h.choose_spec.2⟩
  rw [hjudged] at hholds
  cases hcopy : patched env changes Env.bind with
  | none =>
    rw [hcopy] at hholds
    have hs : Settled heap s a none env := ⟨ha, below, hholds, by simp⟩
    obtain ⟨hsound, hgrown⟩ := sound.remember List.prefix_rfl hs
    refine ⟨_, ?_, hsound, hgrown, Memo.seen_snoc_self _ _ _⟩
    rw [visit, sound.getD ha, hchanges]
    simp only [bind, Outcome.bind]
    rw [hcopy]
    rfl
  | some copy =>
    rw [hcopy] at hholds hpatched
    have hs : Settled heap ⟨s.heap ++ [copy], s.memo⟩ a (some s.heap.length) env := by
      refine ⟨ha, below, hholds, ?_⟩
      rintro a' ⟨⟩
      refine ⟨sound.kept.length_le, ?_⟩
      rw [List.getElem?_concat_length, ← hpatched]
      rfl
    obtain ⟨hsound, hgrown⟩ := sound.remember (List.prefix_append _ _) hs
    refine ⟨_, ?_, hsound, hgrown, Memo.seen_snoc_self _ _ _⟩
    rw [visit, sound.getD ha, hchanges]
    simp only [bind, Outcome.bind]
    rw [hcopy]
    rfl

end Visiting

/-! ## The walk -/

def Walks (s : Scrub Code Scheme) (stack : List Visit) (t : Scrub Code Scheme) : Prop :=
  Ends (fun fuel => walk fuel s stack) t

theorem Walks.nil (s : Scrub Code Scheme) : Walks s [] s := by
  refine ⟨1, fun fuel hfuel => ?_⟩
  obtain ⟨n, rfl⟩ := Nat.exists_eq_add_of_le' hfuel
  rfl

theorem Walks.step {s s' t : Scrub Code Scheme} {v : Visit} {pushed stack : List Visit}
    (hv : s.visit v = .done (s', pushed)) (h : Walks s' (pushed ++ stack) t) : Walks s (v :: stack) t := by
  obtain ⟨n, hn⟩ := h
  refine ⟨n + 1, fun fuel hfuel => ?_⟩
  obtain ⟨m, rfl⟩ := Nat.exists_eq_add_of_le' (Nat.le_trans (Nat.le_add_left 1 n) hfuel)
  change ((s.visit v).bind fun r => walk m r.1 (r.2 ++ stack)) = .done t
  rw [hv]
  exact hn m (by omega)

/-- Visits that settle what they name, whatever stack they are on, and leave the rest of it. -/
def Opens (heap : Heap Code Scheme) (s : Scrub Code Scheme) (scopes : List ℕ) (visits : List Visit) : Prop :=
  ∃ s', Sound heap s' ∧ Grown s s' ∧ (∀ a ∈ scopes, (s'.memo.seen a).isSome) ∧
    ∀ stack t, Walks s' stack t → Walks s (visits ++ stack) t

section Walking
variable {heap : Heap Code Scheme}

theorem opens_list {scopes : List ℕ}
    (h : ∀ a ∈ scopes, ∀ s : Scrub Code Scheme, Sound heap s → Opens heap s [a] [.opens a])
    {s : Scrub Code Scheme} (sound : Sound heap s) : Opens heap s scopes (scopes.map .opens) := by
  induction scopes generalizing s with
  | nil => exact ⟨s, sound, .refl s, by simp, fun _ _ hw => hw⟩
  | cons a rest ih =>
    obtain ⟨s₁, hsound₁, hgrown₁, hseen₁, hwalk₁⟩ := h a List.mem_cons_self s sound
    obtain ⟨s₂, hsound₂, hgrown₂, hseen₂, hwalk₂⟩ := ih (fun b hb => h b (List.mem_cons_of_mem a hb)) hsound₁
    refine ⟨s₂, hsound₂, hgrown₁.trans hgrown₂, ?_, fun stack t hw => ?_⟩
    · intro b hb
      rcases List.mem_cons.mp hb with rfl | hb
      · exact hgrown₂.memo.isSome (hseen₁ b (List.mem_singleton_self b))
      · exact hseen₂ b hb
    · exact hwalk₁ _ t (hwalk₂ stack t hw)

/-- Opening a scope settles it: everything it captures is opened above its close. -/
theorem opens (hheap : heap.Sound) (a : ℕ) (ha : a < heap.length) (s : Scrub Code Scheme)
    (sound : Sound heap s) : Opens heap s [a] [.opens a] := by
  induction a using hheap.acyclic.induction generalizing s with
  | _ a ih =>
  by_cases hseen : (s.memo.seen a).isSome
  · have hvisit : s.visit (.opens a) = .done (s, []) := by rw [visit, if_pos hseen]
    refine ⟨s, sound, .refl s, ?_, fun stack t hw => .step hvisit hw⟩
    simpa using hseen
  · have henv : heap[a]? = some heap[a] := List.getElem?_eq_getElem ha
    have hstands : ∀ c ∈ heap[a].captured, c < heap.length := hheap.standing _ (List.getElem_mem ha)
    have hunseen : ∀ c ∈ (heap[a].captured.filter fun c => (s.memo.seen c).isNone).reverse, c ∈ heap[a].captured := by
      intro c hc
      exact (List.mem_filter.mp (List.mem_reverse.mp hc)).1
    obtain ⟨s₁, hsound₁, hgrown₁, hseen₁, hwalk₁⟩ := opens_list
      (fun c hc s sound => ih c ⟨_, henv, hunseen c hc⟩ (hstands c (hunseen c hc)) s sound) sound
    have hbelow : ∀ c ∈ heap[a].captured, (s₁.memo.seen c).isSome := by
      intro c hc
      by_cases hbefore : (s.memo.seen c).isSome
      · exact hgrown₁.memo.isSome hbefore
      · have hnone : (s.memo.seen c).isNone := by simpa using hbefore
        exact hseen₁ c (List.mem_reverse.mpr (List.mem_filter.mpr ⟨hc, hnone⟩))
    obtain ⟨s₂, hvisit₂, hsound₂, hgrown₂, hseen₂⟩ := hsound₁.closes hheap henv hbelow
    refine ⟨s₂, hsound₂, hgrown₁.trans hgrown₂, by simpa using hseen₂, fun stack t hw => ?_⟩
    have hvisit : s.visit (.opens a) = .done (s, (heap[a].captured.filter fun c =>
        (s.memo.seen c).isNone).reverse.map .opens ++ [.closes a]) := by
      rw [visit, if_neg hseen, sound.getD henv]
    refine .step hvisit ?_
    rw [List.append_assoc]
    exact hwalk₁ _ t (.step hvisit₂ hw)

theorem settles (hheap : heap.Sound) {s : Scrub Code Scheme} (sound : Sound heap s) {roots : List ℕ}
    (hroots : ∀ a ∈ roots, a < heap.length) : ∃ s', Ends (fun fuel => s.settle fuel roots) s' ∧
    Sound heap s' ∧ Grown s s' ∧ ∀ a ∈ roots, (s'.memo.seen a).isSome := by
  have hopens : Opens heap s roots.reverse (roots.reverse.map .opens) := by
    refine opens_list (fun a ha s sound => ?_) sound
    exact opens hheap a (hroots a (List.mem_reverse.mp ha)) s sound
  obtain ⟨s', hsound, hgrown, hseen, hwalk⟩ := hopens
  have hend : Walks s (roots.reverse.map .opens) s' := by simpa using hwalk [] s' (.nil s')
  exact ⟨s', hend, hsound, hgrown, fun a ha => hseen a (List.mem_reverse.mpr ha)⟩

end Walking

end Scrub

/-! ## The frames -/

def HandlerFrame.values (frame : HandlerFrame Code Scheme) : List (Value Code) :=
  frame.entries.map HandlerEntry.thunk ++ frame.catchAll.toList

def HandlerEntry.scrubbed (r : ℕ → ℕ) (entry : HandlerEntry Code Scheme) : HandlerEntry Code Scheme :=
  { entry with thunk := entry.thunk.scrubbed r }

def HandlerFrame.scrubbed (frame : HandlerFrame Code Scheme) (r : ℕ → ℕ) : HandlerFrame Code Scheme where
  entries := frame.entries.map (HandlerEntry.scrubbed r)
  catchAll := frame.catchAll.map (Value.scrubbed r)
  kind := frame.kind

def Shell.roots {Rest : Type} (shell : Shell Code Scheme Rest) : List ℕ :=
  shell.env :: shell.handlers.flatMap fun frame => frame.values.flatMap Value.capturedScopes

/-- A value of a shell over `heap`. -/
structure Value.Stands (heap : Heap Code Scheme) (v : Value Code) : Prop where
  formed : v.Formed
  scopes : ∀ c ∈ v.capturedScopes, c < heap.length

namespace Scrub

section Bequeathing
variable {heap : Heap Code Scheme} {s : Scrub Code Scheme}

/-- `f` comes to a scrub with every root settled, and to what its memo makes of the argument: the
addresses of the roots alone decide it. -/
def Scrubs {α : Type} (heap : Heap Code Scheme) (s : Scrub Code Scheme) (f : ℕ → Outcome (Scrub Code Scheme × α))
    (roots : List ℕ) (made : (ℕ → ℕ) → α) : Prop :=
  (∀ r r', (∀ a ∈ roots, r a = r' a) → made r = made r') ∧
    ∃ s', Ends f (s', made s'.memo.address) ∧ Sound heap s' ∧ Grown s s' ∧ ∀ a ∈ roots, (s'.memo.seen a).isSome

theorem Scrubs.done {α : Type} (sound : Sound heap s) (a : α) : Scrubs heap s (fun _ => .done (s, a)) [] fun _ => a :=
  ⟨fun _ _ _ => rfl, s, .const _, sound, .refl s, by simp⟩

theorem Scrubs.seq {α β γ : Type} {f : ℕ → Outcome (Scrub Code Scheme × α)}
    {g : ℕ → Scrub Code Scheme → Outcome (Scrub Code Scheme × β)} {roots roots' : List ℕ} {made : (ℕ → ℕ) → α}
    {made' : (ℕ → ℕ) → β} (k : α → β → γ) (hf : Scrubs heap s f roots made)
    (hg : ∀ s', Sound heap s' → Scrubs heap s' (fun fuel => g fuel s') roots' made') :
    Scrubs heap s (fun fuel => f fuel >>= fun first => g fuel first.1 >>= fun second =>
      pure (second.1, k first.2 second.2)) (roots ++ roots') fun r => k (made r) (made' r) := by
  obtain ⟨hstable, s₁, hends₁, hsound₁, hgrown₁, hseen₁⟩ := hf
  obtain ⟨hstable', s₂, hends₂, hsound₂, hgrown₂, hseen₂⟩ := hg s₁ hsound₁
  have hfirst : made s₁.memo.address = made s₂.memo.address :=
    hstable _ _ fun a ha => (hgrown₂.memo.address (hseen₁ a ha)).symm
  refine ⟨fun r r' h => ?_, s₂, ?_, hsound₂, hgrown₁.trans hgrown₂, fun a ha => ?_⟩
  · change k (made r) (made' r) = k (made r') (made' r')
    rw [hstable r r' fun a ha => h a (List.mem_append_left _ ha),
      hstable' r r' fun a ha => h a (List.mem_append_right _ ha)]
  · change Ends _ (s₂, k (made s₂.memo.address) (made' s₂.memo.address))
    rw [← hfirst]
    exact hends₁.bind (hends₂.bind (.const _))
  · rcases List.mem_append.mp ha with ha | ha
    · exact hgrown₂.memo.isSome (hseen₁ a ha)
    · exact hseen₂ a ha

theorem inPlace_scrubs (hheap : heap.Sound) {v : Value Code} (hv : v.Stands heap) (s : Scrub Code Scheme)
    (sound : Sound heap s) : Scrubs heap s (fun fuel => s.inPlace fuel v) v.capturedScopes fun r => v.scrubbed r := by
  obtain ⟨s', hends, hsound, hgrown, hseen⟩ := settles hheap sound hv.scopes
  have hjudges : ∀ c ∈ v.capturedScopes, s'.memo.Judges heap c := fun c hc => hsound.judges (hseen c hc)
  obtain ⟨hrebuild, hscrubs, -⟩ := Memo.rebuilds hv.formed hjudges
  refine ⟨fun r r' h => Value.scrubbed_congr v h, s', ?_, hsound, hgrown, hseen⟩
  have hvalue : Ends (fun fuel => s.value fuel v) (s', s'.memo.new v) := by
    refine hends.bind ?_
    rw [hrebuild]
    exact .const _
  change Ends _ (s', v.scrubbed s'.memo.address)
  rw [← hscrubs]
  exact hvalue.bind (.const _)

theorem entries_scrubs (hheap : heap.Sound) {entries : List (HandlerEntry Code Scheme)}
    (h : ∀ e ∈ entries, e.thunk.Stands heap) (s : Scrub Code Scheme) (sound : Sound heap s) :
    Scrubs heap s (fun fuel => s.entries fuel entries) (entries.flatMap fun e => e.thunk.capturedScopes)
      fun r => entries.map (HandlerEntry.scrubbed r) := by
  induction entries generalizing s with
  | nil => exact .done sound []
  | cons e rest ih =>
    have hthunk := inPlace_scrubs hheap (h e List.mem_cons_self) s sound
    have hrest := ih fun e' he' => h e' (List.mem_cons_of_mem e he')
    exact hthunk.seq (fun thunk rest => { e with thunk } :: rest) hrest

theorem frame_scrubs (hheap : heap.Sound) {frame : HandlerFrame Code Scheme}
    (h : ∀ v ∈ frame.values, v.Stands heap) (s : Scrub Code Scheme) (sound : Sound heap s) :
    Scrubs heap s (fun fuel => s.frame fuel frame) (frame.values.flatMap Value.capturedScopes) frame.scrubbed := by
  obtain ⟨entries, catchAll, kind⟩ := frame
  have hentries := entries_scrubs hheap
    (fun e he => h e.thunk (List.mem_append_left _ (List.mem_map_of_mem he))) s sound
  have hroots : (HandlerFrame.mk entries catchAll kind).values.flatMap Value.capturedScopes =
      (entries.flatMap fun e => e.thunk.capturedScopes) ++ catchAll.toList.flatMap Value.capturedScopes := by
    rw [HandlerFrame.values, List.flatMap_append, List.flatMap_map]
  rw [hroots]
  cases catchAll with
  | none =>
    have hframe := hentries.seq (fun entries (_ : Unit) => HandlerFrame.mk entries none kind) fun s' hs' => .done hs' ()
    exact hframe
  | some v =>
    have hv : v.Stands heap := h v (by simp [HandlerFrame.values])
    have hframe := hentries.seq (fun entries v => HandlerFrame.mk entries (some v) kind) (inPlace_scrubs hheap hv)
    rw [Option.toList_some, List.flatMap_singleton]
    exact hframe

theorem frames_scrubs (hheap : heap.Sound) {frames : List (HandlerFrame Code Scheme)}
    (h : ∀ frame ∈ frames, ∀ v ∈ frame.values, v.Stands heap) (s : Scrub Code Scheme) (sound : Sound heap s) :
    Scrubs heap s (fun fuel => s.frames fuel frames) (frames.flatMap fun frame => frame.values.flatMap Value.capturedScopes)
      fun r => frames.map (HandlerFrame.scrubbed · r) := by
  induction frames generalizing s with
  | nil => exact .done sound []
  | cons frame rest ih =>
    have hframe := frame_scrubs hheap (h frame List.mem_cons_self) s sound
    have hrest := ih fun f hf => h f (List.mem_cons_of_mem frame hf)
    exact hframe.seq (fun frame rest => frame :: rest) hrest

theorem scope_scrubs (hheap : heap.Sound) (sound : Sound heap s) {root : ℕ} (hroot : root < heap.length) :
    ∃ s' replacement, Ends (fun fuel => s.scope fuel root) (s', replacement) ∧ Sound heap s' ∧
      (s'.memo.seen root).isSome ∧ replacement.getD root = s'.memo.address root := by
  have hroots : ∀ a ∈ [root], a < heap.length := by simpa using hroot
  obtain ⟨s', hends, hsound, -, hseen⟩ := settles hheap sound hroots
  obtain ⟨replacement, hreplacement, haddress, -⟩ := (hsound.judges (hseen root (by simp))).replacement
  refine ⟨s', replacement, ?_, hsound, hseen root (by simp), haddress⟩
  refine hends.bind ?_
  rw [hreplacement]
  exact .const _

end Bequeathing

/-! ## No handle is left -/

section Leaving
variable {heap : Heap Code Scheme} {s : Scrub Code Scheme}

theorem address_of_not_holds (sound : Sound heap s) {a : ℕ} (hseen : (s.memo.seen a).isSome)
    (h : ¬ HoldsAt heap a) : s.memo.address a = a := by
  obtain ⟨replacement, hreplacement⟩ := Option.isSome_iff_exists.mp hseen
  obtain ⟨env, hsettled⟩ := sound.settled a replacement hreplacement
  cases replacement with
  | none => rw [Memo.address, hreplacement]; rfl
  | some a' => exact absurd (hsettled.judged.mp rfl) h

theorem scrubbed_at_address (sound : Sound heap s) {a : ℕ} (hseen : (s.memo.seen a).isSome) : ∃ env,
    heap[a]? = some env ∧ (∀ c ∈ env.captured, (s.memo.seen c).isSome) ∧
      s.heap[s.memo.address a]? = some (env.scrubbed s.memo.address) ∧
      (HoldsAt heap a → heap.length ≤ s.memo.address a) := by
  obtain ⟨replacement, hreplacement⟩ := Option.isSome_iff_exists.mp hseen
  obtain ⟨env, hstands, hbelow, hjudged, hfresh⟩ := sound.settled a replacement hreplacement
  have haddress : s.memo.address a = replacement.getD a := by rw [Memo.address, hreplacement]; rfl
  refine ⟨env, hstands, hbelow, ?_⟩
  rw [haddress]
  cases replacement with
  | some a' =>
    obtain ⟨hnew, hat⟩ := hfresh a' rfl
    exact ⟨hat, fun _ => hnew⟩
  | none =>
    have hnot : ¬ HoldsAt heap a := fun h => absurd (hjudged.mpr h) Bool.false_ne_true
    have hsame : env.scrubbed s.memo.address = env := by
      refine (List.map_congr_left fun e he => ?_).trans env.map_id
      have hvalue : e.2.value.scrubbed s.memo.address = e.2.value := by
        refine Value.scrubbed_of_not_holds (fun h => hnot ⟨env, hstands, e, he, h⟩) fun c hc hcnot => ?_
        exact address_of_not_holds sound (hbelow c (List.mem_flatMap.mpr ⟨e, he, hc⟩)) hcnot
      rw [Binding.scrubbed, hvalue]
      rfl
    obtain ⟨added, hadded⟩ := sound.kept
    refine ⟨?_, fun h => absurd h hnot⟩
    rw [hsame, ← hadded]
    exact List.getElem?_append_left (List.getElem?_eq_some_iff.mp hstands).1 |>.trans hstands

theorem not_holdsAt_address (hheap : heap.Sound) (sound : Sound heap s) (a : ℕ) (hseen : (s.memo.seen a).isSome) :
    ¬ HoldsAt s.heap (s.memo.address a) := by
  induction a using hheap.acyclic.induction with
  | _ a ih =>
  obtain ⟨env, hstands, hbelow, hat, -⟩ := scrubbed_at_address sound hseen
  rintro ⟨copy, hcopy, e, he, h⟩
  cases Option.some.inj (hat.symm.trans hcopy)
  obtain ⟨old, hold, rfl⟩ := List.mem_map.mp he
  refine Value.not_holds_scrubbed (v := old.2.value) (fun c hc => ?_) h
  have hcaptured : c ∈ env.captured := List.mem_flatMap.mpr ⟨old, hold, hc⟩
  exact ih c ⟨env, hstands, hcaptured⟩ (hbelow c hcaptured)

theorem seen_of_reached (sound : Sound heap s) {roots : List ℕ} (h : ∀ a ∈ roots, (s.memo.seen a).isSome)
    {a : ℕ} (hreached : Reached heap roots a) : (s.memo.seen a).isSome := by
  induction hreached with
  | root ha => exact h _ ha
  | captured _ hstands hc ih =>
    obtain ⟨env, hstands', hbelow, -⟩ := scrubbed_at_address sound ih
    cases Option.some.inj (hstands.symm.trans hstands')
    exact hbelow _ hc

end Leaving

end Scrub

/-! ## The bequest -/

def Heap.resolve (heap : Heap Code Scheme) (a : ℕ) (name : String) : Option (Binding Code Scheme) :=
  heap[a]?.bind fun env => env.binding name

theorem Env.binding_scrubbed (r : ℕ → ℕ) (env : Env Code Scheme) (name : String) :
    Env.binding (env.scrubbed r) name = (env.binding name).map (Binding.scrubbed r) := by
  rw [Env.binding, Env.scrubbed, List.find?_map, Option.map_map, Env.binding, Option.map_map]
  rfl

/-- A session whose scopes stand and form a DAG. -/
structure Shell.Sound {Rest : Type} (shell : Shell Code Scheme Rest) : Prop where
  heap : shell.heap.Sound
  env : shell.env < shell.heap.length
  frames : ∀ frame ∈ shell.handlers, ∀ v ∈ frame.values, v.Stands shell.heap

/-- The bequest ends, and comes to the session with each scope `r` of itself, scrubbed: no handle is
reached from it, and what reached none is the very same. -/
theorem bequeath_scrubs {Rest Grant : Type} (shell : Shell Code Scheme Rest) (grant : Grant)
    (sound : shell.Sound) : ∃ (heap : Heap Code Scheme) (r : ℕ → ℕ),
    Ends (fun fuel => shell.bequeath fuel grant)
      ⟨⟨heap, r shell.env, shell.handlers.map (·.scrubbed r), shell.rest⟩, grant⟩ ∧
    shell.heap <+: heap ∧
    (∀ a, Reached shell.heap shell.roots a →
      (∃ env, shell.heap[a]? = some env ∧ heap[r a]? = some (env.scrubbed r)) ∧
      (∀ name, heap.resolve (r a) name = (shell.heap.resolve a name).map (Binding.scrubbed r)) ∧
      ¬ HoldsAt heap (r a) ∧ (¬ HoldsAt shell.heap a → r a = a) ∧
      (HoldsAt shell.heap a → shell.heap.length ≤ r a)) ∧
    (∀ frame ∈ shell.handlers, ∀ v ∈ (frame.scrubbed r).values, ¬ Holds heap v) ∧
    ∀ v : Value Code, (∀ c ∈ v.capturedScopes, Reached shell.heap shell.roots c) → ¬ Holds shell.heap v →
      v.scrubbed r = v := by
  obtain ⟨s₁, replacement, hscope, hsound₁, hseen₁, haddress₁⟩ :=
    Scrub.scope_scrubs sound.heap (.initial shell.heap) sound.env
  obtain ⟨-, s₂, hframes, hsound₂, hgrown₂, hseen₂⟩ := Scrub.frames_scrubs sound.heap sound.frames s₁ hsound₁
  have henv : replacement.getD shell.env = s₂.memo.address shell.env :=
    haddress₁.trans (hgrown₂.memo.address hseen₁).symm
  have hroots : ∀ a ∈ shell.roots, (s₂.memo.seen a).isSome := by
    intro a ha
    rcases List.mem_cons.mp ha with rfl | ha
    · exact hgrown₂.memo.isSome hseen₁
    · exact hseen₂ a ha
  have hreached {a : ℕ} (h : Reached shell.heap shell.roots a) : (s₂.memo.seen a).isSome :=
    Scrub.seen_of_reached hsound₂ hroots h
  refine ⟨s₂.heap, s₂.memo.address, ?_, hsound₂.kept, fun a ha => ?_, ?_, ?_⟩
  · rw [← henv]
    exact hscope.bind (hframes.bind (.const _))
  · obtain ⟨env, hstands, -, hat, hfresh⟩ := Scrub.scrubbed_at_address hsound₂ (hreached ha)
    refine ⟨⟨env, hstands, hat⟩, fun name => ?_, Scrub.not_holdsAt_address sound.heap hsound₂ a (hreached ha),
      Scrub.address_of_not_holds hsound₂ (hreached ha), hfresh⟩
    rw [Heap.resolve, Heap.resolve, hat, hstands]
    exact Env.binding_scrubbed _ env name
  · intro frame hframe v hv
    have hold : ∃ w ∈ frame.values, w.scrubbed s₂.memo.address = v := by
      simpa [HandlerFrame.values, HandlerFrame.scrubbed, HandlerEntry.scrubbed, or_and_right, exists_or] using hv
    obtain ⟨w, hw, rfl⟩ := hold
    refine Value.not_holds_scrubbed fun c hc => ?_
    apply Scrub.not_holdsAt_address sound.heap hsound₂ c
    apply hroots
    exact List.mem_cons_of_mem _ (List.mem_flatMap.mpr ⟨frame, hframe, List.mem_flatMap.mpr ⟨w, hw, hc⟩⟩)
  · intro v hv hnot
    exact Value.scrubbed_of_not_holds hnot fun c hc => Scrub.address_of_not_holds hsound₂ (hreached (hv c hc))

theorem Heap.acyclic_of_older {heap : Heap Code Scheme}
    (older : ∀ a, ∀ env ∈ heap[a]?, ∀ c ∈ Env.captured env, c < a) :
    WellFounded fun c a => ∃ env : Env Code Scheme, heap[a]? = some env ∧ c ∈ env.captured := by
  refine Subrelation.wf (fun {c a} h => ?_) Nat.lt_wfRel.wf
  obtain ⟨env, henv, hc⟩ := h
  exact older a env henv c hc

/-- A scope with a live handle, and the session's scope with a block over it; an alias over the same. -/
def Shell.live : Shell Unit Unit Unit where
  heap := [[("live", ⟨.handle, none⟩)], [("blk", ⟨.thunk () 0, none⟩)]]
  env := 1
  handlers := [⟨[⟨"ll", .unary, .thunk () 0, none⟩], none, .alias⟩]
  rest := ()

theorem bequeath_scrubs_live : ∃ (heap : Heap Unit Unit) (r : ℕ → ℕ),
    Ends (fun fuel => Shell.live.bequeath fuel ())
      ⟨⟨heap, r 1, [⟨[⟨"ll", .unary, .thunk () (r 0), none⟩], none, .alias⟩], ()⟩, ()⟩ ∧ ¬ HoldsAt heap (r 1) := by
  have sound : Shell.live.Sound := by
    refine ⟨⟨?_, ?_, ?_, Heap.acyclic_of_older ?_⟩, by decide, ?_⟩
    · simp [Shell.live]
    · simp [Shell.live, Value.Formed]
    · simp [Shell.live, Env.captured, Value.capturedScopes]
    · intro a
      rcases a with _ | _ | a
      · simp [Shell.live, Env.captured, Value.capturedScopes]
      · simp [Shell.live, Env.captured, Value.capturedScopes]
      · simp [Shell.live]
    · intro frame hframe v hv
      cases List.mem_singleton.mp hframe
      cases List.mem_singleton.mp hv
      exact ⟨trivial, by simp [Value.capturedScopes, Shell.live]⟩
  obtain ⟨heap, r, hends, -, hreached, -⟩ := bequeath_scrubs Shell.live () sound
  exact ⟨heap, r, hends, (hreached 1 (.root List.mem_cons_self)).2.2.1⟩

example : (Shell.live.bequeath 9 () matches .done ⟨⟨_, 3, _, ()⟩, ()⟩) = true := by rfl

end Ral.State
