import Mathlib.Data.List.Infix
import Mathlib.Data.List.Forall2
import Ral.Process.Cancel

/-! # What is in force on a scope

`resolve` folds the readings of a chain, root first. Against it stands the list of
strikes no shield masks: the cause in force is the strongest of these and only rises,
and what passes one shield passes every shield nested in it.
-/

namespace Ral.Process

/-! ## The fold -/

/-- What the walk reads of one node. -/
structure Sight where
  node : ℕ
  shield : Option ℕ
  now : ℕ
  flag : ℕ
  cancelledAt : Option ℕ

/-- What a chain folds to: the join, the outermost node attaining it, and the earliest
strike on the chain. -/
structure InForce where
  cause : ℕ
  node : ℕ
  since : ℕ

namespace Sight

def admits (s : Sight) (j : InForce) : Bool :=
  match s.shield with
  | none => true
  | some grace => CancelCause.aborted.asU8 ≤ j.cause || j.since + grace ≤ s.now

/-- One node of the fold; `none` is the panic of a struck node without its instant. -/
def meet (above : Option InForce) (s : Sight) : Option (Option InForce) :=
  let above := above.filter s.admits
  if s.flag = 0 then some above
  else match s.cancelledAt with
    | none => none
    | some instant => match above with
      | some j =>
        if s.flag ≤ j.cause then some (some { j with since := min j.since instant })
        else some (some ⟨s.flag, s.node, min j.since instant⟩)
      | none => some (some ⟨s.flag, s.node, instant⟩)

end Sight

def resolve (sights : List Sight) : Option (Option InForce) :=
  sights.reverse.foldlM Sight.meet none

/-- The strongest cause in force and the node that attained it; the outer `none` is a panic. -/
def inForce (sights : List Sight) : Option (Option (CancelCause × ℕ)) :=
  (resolve sights).bind fun
    | none => some none
    | some j => (CancelCause.fromRepr j.cause).map fun cause => some (cause, j.node)

theorem resolve_nil : resolve [] = some none := rfl

theorem resolve_cons (s : Sight) (above : List Sight) :
    resolve (s :: above) = (resolve above).bind fun j => s.meet j := by
  simp only [resolve, List.reverse_cons, List.foldlM_append, List.foldlM_cons, List.foldlM_nil]
  cases above.reverse.foldlM Sight.meet none <;> simp

/-! ## The unmasked strikes -/

/-- A node whose flag is raised. -/
structure Strike where
  node : ℕ
  cause : ℕ
  instant : ℕ

def Sight.struck (s : Sight) : Option Strike :=
  if s.flag = 0 then none else s.cancelledAt.map (⟨s.node, s.flag, ·⟩)

def Sight.Masks (s : Sight) (above : List Strike) : Prop :=
  ∃ grace ∈ s.shield, ∀ u ∈ above,
    u.cause < CancelCause.aborted.asU8 ∧ s.now < u.instant + grace

open Classical in
/-- The strikes of a chain that nothing below them masks, innermost first. -/
noncomputable def unmasked : List Sight → List Strike
  | [] => []
  | s :: above =>
    s.struck.toList ++ if s.Masks (unmasked above) then [] else unmasked above

def Names (found : Option (CancelCause × ℕ)) (strikes : List Strike) : Prop :=
  match found with
  | none => strikes = []
  | some (cause, owner) => ∃ inner instant outer,
      strikes = inner ++ ⟨owner, cause.asU8, instant⟩ :: outer ∧
      (∀ u ∈ inner, u.cause ≤ cause.asU8) ∧ ∀ u ∈ outer, u.cause < cause.asU8

/-- The escalation of what is in force, `0` for nothing. -/
def rank (found : Option (CancelCause × ℕ)) : ℕ := found.elim 0 fun c => c.1.asU8

/-! ## The fold finds the strongest strike -/

structure InForce.Sums (j : InForce) (strikes : List Strike) : Prop where
  owner : ∃ inner instant outer, strikes = inner ++ ⟨j.node, j.cause, instant⟩ :: outer ∧
    (∀ u ∈ inner, u.cause ≤ j.cause) ∧ ∀ u ∈ outer, u.cause < j.cause
  since_le : ∀ u ∈ strikes, j.since ≤ u.instant
  since_mem : ∃ u ∈ strikes, u.instant = j.since
  pos : j.cause ≠ 0
  le : j.cause ≤ CancelCause.aborted.asU8

def Sums (found : Option InForce) (strikes : List Strike) : Prop :=
  match found with
  | none => strikes = []
  | some j => j.Sums strikes

/-- A reading a walk can make: a raised flag is a cause and comes with its instant. -/
structure Sight.Sound (s : Sight) : Prop where
  causes : s.flag ≤ CancelCause.aborted.asU8
  struck : s.flag ≠ 0 → s.cancelledAt.isSome

namespace InForce

variable {j : InForce} {strikes : List Strike}

theorem Sums.cause_le (sums : j.Sums strikes) : ∀ u ∈ strikes, u.cause ≤ j.cause := by
  obtain ⟨inner, instant, outer, rfl, weaker, below⟩ := sums.owner
  intro u hu
  simp only [List.mem_append, List.mem_cons] at hu
  rcases hu with hu | rfl | hu
  · exact weaker u hu
  · exact Nat.le_refl _
  · exact Nat.le_of_lt (below u hu)

theorem Sums.attained (sums : j.Sums strikes) : ∃ u ∈ strikes, u.cause = j.cause := by
  obtain ⟨inner, instant, outer, rfl, -, -⟩ := sums.owner
  exact ⟨⟨j.node, j.cause, instant⟩, by simp, rfl⟩

/-- The shield's test of the join is its test of every strike the join sums up. -/
theorem Sums.admits_iff (sums : j.Sums strikes) (s : Sight) :
    s.admits j = true ↔ ¬ s.Masks strikes := by
  unfold Sight.admits Sight.Masks
  cases hs : s.shield with
  | none => simp
  | some grace =>
    simp only [Option.mem_def, Option.some.injEq, exists_eq_left', Bool.or_eq_true,
      decide_eq_true_eq]
    constructor
    · intro admitted masks
      obtain ⟨u, hu, strongest⟩ := sums.attained
      obtain ⟨e, he, earliest⟩ := sums.since_mem
      have weak := (masks u hu).1
      have running := (masks e he).2
      omega
    · intro unmasked
      by_contra refused
      apply unmasked
      intro u hu
      have strongest := sums.cause_le u hu
      have earliest := sums.since_le u hu
      omega

/-- A strike under the join, no stronger: the outer owner keeps its name. -/
theorem Sums.under (sums : j.Sums strikes) {node flag instant : ℕ} (le : flag ≤ j.cause) :
    ({ j with since := min j.since instant } : InForce).Sums (⟨node, flag, instant⟩ :: strikes) where
  owner := by
    obtain ⟨inner, at', outer, rfl, weaker, below⟩ := sums.owner
    refine ⟨⟨node, flag, instant⟩ :: inner, at', outer, rfl, ?_, below⟩
    intro u hu
    rcases List.mem_cons.mp hu with rfl | hu
    · exact le
    · exact weaker u hu
  since_le := by
    intro u hu
    rcases List.mem_cons.mp hu with rfl | hu
    · exact Nat.min_le_right _ _
    · exact Nat.le_trans (Nat.min_le_left _ _) (sums.since_le u hu)
  since_mem := by
    by_cases first : j.since ≤ instant
    · obtain ⟨u, hu, earliest⟩ := sums.since_mem
      exact ⟨u, List.mem_cons_of_mem _ hu, by simp [earliest, first]⟩
    · refine ⟨⟨node, flag, instant⟩, List.mem_cons_self, ?_⟩
      show instant = min j.since instant
      omega
  pos := sums.pos
  le := sums.le

/-- A strike under the join, stronger than all of it. -/
theorem Sums.over (sums : j.Sums strikes) {node flag instant : ℕ} (lt : j.cause < flag)
    (le : flag ≤ CancelCause.aborted.asU8) :
    (⟨flag, node, min j.since instant⟩ : InForce).Sums (⟨node, flag, instant⟩ :: strikes) where
  owner := by
    refine ⟨[], instant, strikes, rfl, by simp, ?_⟩
    intro u hu
    exact Nat.lt_of_le_of_lt (sums.cause_le u hu) lt
  since_le := by
    intro u hu
    rcases List.mem_cons.mp hu with rfl | hu
    · exact Nat.min_le_right _ _
    · exact Nat.le_trans (Nat.min_le_left _ _) (sums.since_le u hu)
  since_mem := by
    by_cases first : j.since ≤ instant
    · obtain ⟨u, hu, earliest⟩ := sums.since_mem
      exact ⟨u, List.mem_cons_of_mem _ hu, by simp [earliest, first]⟩
    · refine ⟨⟨node, flag, instant⟩, List.mem_cons_self, ?_⟩
      show instant = min j.since instant
      omega
  pos := by
    show flag ≠ 0
    omega
  le := le

theorem sums_singleton {node flag instant : ℕ} (pos : flag ≠ 0)
    (le : flag ≤ CancelCause.aborted.asU8) :
    (⟨flag, node, instant⟩ : InForce).Sums [⟨node, flag, instant⟩] where
  owner := ⟨[], instant, [], rfl, by simp, by simp⟩
  since_le := by simp
  since_mem := ⟨_, List.mem_singleton_self _, rfl⟩
  pos := pos
  le := le

end InForce

theorem Sums.filter {found : Option InForce} {strikes : List Strike} (sums : Sums found strikes)
    (s : Sight) [Decidable (s.Masks strikes)] :
    Sums (found.filter s.admits) (if s.Masks strikes then [] else strikes) := by
  cases found with
  | none =>
    cases sums
    simp [Sums]
  | some j =>
    have test := InForce.Sums.admits_iff sums s
    by_cases masks : s.Masks strikes
    · have refused : s.admits j = false := by
        rw [← Bool.not_eq_true, test]
        exact fun h => h masks
      simp [Option.filter, refused, masks, Sums]
    · rw [if_neg masks, Option.filter_some_pos (test.mpr masks)]
      exact sums

/-- One node of the fold sums up its own strike and what its shield admits. -/
theorem Sight.Sound.meet {s : Sight} (sound : s.Sound) {found : Option InForce}
    {strikes : List Strike} (sums : Sums found strikes) [Decidable (s.Masks strikes)] :
    ∃ found', s.meet found = some found' ∧
      Sums found' (s.struck.toList ++ if s.Masks strikes then [] else strikes) := by
  have admitted := sums.filter s
  unfold Sight.meet Sight.struck
  by_cases unraised : s.flag = 0
  · refine ⟨found.filter s.admits, by simp [unraised], ?_⟩
    simpa [unraised] using admitted
  · obtain ⟨instant, hi⟩ := Option.isSome_iff_exists.mp (sound.struck unraised)
    simp only [unraised, if_false, hi, Option.map_some, Option.toList_some, List.singleton_append]
    cases hf : found.filter s.admits with
    | none =>
      have nothing : (if s.Masks strikes then [] else strikes) = [] := by
        rw [hf] at admitted
        exact admitted
      refine ⟨_, rfl, ?_⟩
      rw [nothing]
      exact InForce.sums_singleton unraised sound.causes
    | some j =>
      rw [hf] at admitted
      by_cases weaker : s.flag ≤ j.cause
      · simp only [weaker, if_true]
        exact ⟨_, rfl, InForce.Sums.under admitted weaker⟩
      · simp only [weaker, if_false]
        exact ⟨_, rfl, InForce.Sums.over admitted (by omega) sound.causes⟩

theorem resolve_sums {sights : List Sight} (sound : ∀ s ∈ sights, s.Sound) :
    ∃ found, resolve sights = some found ∧ Sums found (unmasked sights) := by
  induction sights with
  | nil => exact ⟨none, rfl, rfl⟩
  | cons s above ih =>
    obtain ⟨found, hfound, sums⟩ := ih fun t ht => sound t (List.mem_cons_of_mem _ ht)
    classical
    obtain ⟨found', hmeet, sums'⟩ := (sound s List.mem_cons_self).meet sums
    refine ⟨found', ?_, ?_⟩
    · rw [resolve_cons, hfound, Option.bind_some, hmeet]
    · unfold unmasked
      convert sums'

theorem inForce_names {sights : List Sight} (sound : ∀ s ∈ sights, s.Sound) :
    ∃ found, inForce sights = some found ∧ Names found (unmasked sights) := by
  obtain ⟨found, hfound, sums⟩ := resolve_sums sound
  cases found with
  | none => exact ⟨none, by simp [inForce, hfound], sums⟩
  | some j =>
    obtain ⟨cause, hcause, code⟩ := CancelCause.fromRepr_of_pos sums.pos sums.le
    refine ⟨some (cause, j.node), by simp [inForce, hfound, hcause], ?_⟩
    have owner := InForce.Sums.owner sums
    rw [← code] at owner
    exact owner

theorem Names.le_rank {found : Option (CancelCause × ℕ)} {strikes : List Strike}
    (names : Names found strikes) {u : Strike} (hu : u ∈ strikes) : u.cause ≤ rank found := by
  rcases found with _ | ⟨cause, owner⟩
  · rw [show strikes = [] from names] at hu
    cases hu
  · obtain ⟨inner, instant, outer, rfl, weaker, below⟩ := names
    simp only [List.mem_append, List.mem_cons] at hu
    rcases hu with hu | rfl | hu
    · exact weaker u hu
    · exact Nat.le_refl _
    · exact Nat.le_of_lt (below u hu)

theorem Names.attained {cause : CancelCause} {owner : ℕ} {strikes : List Strike}
    (names : Names (some (cause, owner)) strikes) : ∃ u ∈ strikes, u.cause = cause.asU8 := by
  obtain ⟨inner, instant, outer, rfl, -, -⟩ := names
  exact ⟨⟨owner, cause.asU8, instant⟩, by simp, rfl⟩

theorem Names.rank_le {found found' : Option (CancelCause × ℕ)} {strikes strikes' : List Strike}
    (names : Names found strikes) (names' : Names found' strikes')
    (kept : ∀ u ∈ strikes, ∃ u' ∈ strikes', u.cause ≤ u'.cause) : rank found ≤ rank found' := by
  rcases found with _ | ⟨cause, owner⟩
  · exact Nat.zero_le _
  · obtain ⟨u, hu, attains⟩ := names.attained
    obtain ⟨u', hu', stronger⟩ := kept u hu
    have below := names'.le_rank hu'
    show cause.asU8 ≤ rank found'
    omega

/-! ## A later reading keeps every strike -/

/-- A reading of the same node made later. -/
structure Sight.Later (s s' : Sight) : Prop where
  node : s'.node = s.node
  shield : s'.shield = s.shield
  now : s.now ≤ s'.now
  flag : s.flag ≤ s'.flag
  cancelledAt : ∀ at' ∈ s.cancelledAt, s'.cancelledAt = some at'

/-- Every strike is still there: of the same node, at the same instant, no weaker. -/
def Kept (strikes strikes' : List Strike) : Prop :=
  ∀ u ∈ strikes, ∃ u' ∈ strikes', u'.node = u.node ∧ u'.instant = u.instant ∧ u.cause ≤ u'.cause

theorem Sight.Later.struck {s s' : Sight} (later : s.Later s') :
    Kept s.struck.toList s'.struck.toList := by
  intro u hu
  unfold Sight.struck at hu ⊢
  by_cases unraised : s.flag = 0
  · simp [unraised] at hu
  · have raised : s'.flag ≠ 0 := by
      have := later.flag
      omega
    cases instant : s.cancelledAt with
    | none => simp [unraised, instant] at hu
    | some at' =>
      simp only [unraised, if_false, instant, Option.map_some, Option.toList_some,
        List.mem_singleton] at hu
      subst hu
      refine ⟨⟨s'.node, s'.flag, at'⟩, ?_, later.node, rfl, later.flag⟩
      simp [raised, later.cancelledAt at' instant]

theorem Sight.Later.masks {s s' : Sight} (later : s.Later s') {strikes strikes' : List Strike}
    (kept : Kept strikes strikes') (masks : s'.Masks strikes') : s.Masks strikes := by
  obtain ⟨grace, hgrace, running⟩ := masks
  rw [later.shield] at hgrace
  refine ⟨grace, hgrace, ?_⟩
  intro u hu
  obtain ⟨u', hu', -, instant, stronger⟩ := kept u hu
  have := running u' hu'
  have := later.now
  omega

theorem unmasked_kept {sights sights' : List Sight} (later : List.Forall₂ Sight.Later sights sights') :
    Kept (unmasked sights) (unmasked sights') := by
  induction later with
  | nil => exact fun u hu => absurd hu List.not_mem_nil
  | @cons s s' above above' hs _ ih =>
    intro u hu
    unfold unmasked at hu ⊢
    rcases List.mem_append.mp hu with own | passed
    · obtain ⟨u', hu', same⟩ := hs.struck u own
      exact ⟨u', List.mem_append_left _ hu', same⟩
    · by_cases masks : s.Masks (unmasked above)
      · simp [masks] at passed
      · rw [if_neg masks] at passed
        obtain ⟨u', hu', same⟩ := ih u passed
        have open' : ¬ s'.Masks (unmasked above') := fun h => masks (hs.masks ih h)
        exact ⟨u', List.mem_append_right _ (by rwa [if_neg open']), same⟩

/-! ## Nested shields -/

/-- What the root-first walk of a chain of narrowing shields reads: clocks advance
inwards, and an inner shield's grace is no longer. -/
structure Nested (sights : List Sight) : Prop where
  clocks : sights.Pairwise fun s t => t.now ≤ s.now
  graces : (sights.filterMap (·.shield)).Pairwise (· ≤ ·)

theorem Nested.tail {s : Sight} {above : List Sight} (nested : Nested (s :: above)) :
    Nested above where
  clocks := (List.pairwise_cons.mp nested.clocks).2
  graces := by
    have graces := nested.graces
    rw [List.filterMap_cons] at graces
    split at graces
    · exact graces
    · exact (List.pairwise_cons.mp graces).2

theorem Nested.passes {below above : List Sight} {s : Sight} {grace : ℕ}
    (nested : Nested (below ++ s :: above)) (shield : s.shield = some grace)
    (passes : ¬ s.Masks (unmasked above)) :
    unmasked above <:+ unmasked (below ++ s :: above) := by
  induction below with
  | nil =>
    simp only [List.nil_append, unmasked, if_neg passes]
    exact List.suffix_append _ _
  | cons b below ih =>
    have inner := ih nested.tail
    have passed : ¬ b.Masks (unmasked (below ++ s :: above)) := by
      rintro ⟨g, hg, running⟩
      apply passes
      refine ⟨grace, shield, ?_⟩
      intro u hu
      have mask := running u (inner.subset hu)
      have mem : s ∈ below ++ s :: above := by simp
      have clock : s.now ≤ b.now := (List.pairwise_cons.mp nested.clocks).1 s mem
      have narrower : g ≤ grace := by
        have graces := nested.graces
        rw [List.cons_append, List.filterMap_cons, show b.shield = some g from hg] at graces
        exact (List.pairwise_cons.mp graces).1 grace
          (List.mem_filterMap.mpr ⟨s, mem, shield⟩)
      omega
    rw [List.cons_append, unmasked, if_neg passed]
    exact inner.trans (List.suffix_append _ _)

/-! ## Readings of a chain -/

/-- `sights` reads `chain` root first, from `w` to `v`: at each node the clock, then the flag,
then the instant, with other steps between any two. -/
inductive Seen : World → List ℕ → List Sight → World → Prop
  | root (w : World) : Seen w [] [] w
  | node {w u v₁ v₂ v : World} {above : List ℕ} {sights : List Sight} {i : ℕ} {a b : Vertex}
      (outer : Seen w above sights u) (clock : Steps u v₁) (flag : Steps v₁ v₂) (instant : Steps v₂ v)
      (ha : v₂.nodes[i]? = some a) (hb : v.nodes[i]? = some b) :
      Seen w (i :: above) (⟨i, a.shield, v₁.clock, a.flag, b.cancelledAt⟩ :: sights) v

variable {w v : World} {chain : List ℕ} {sights : List Sight}

theorem Seen.steps (seen : Seen w chain sights v) : Steps w v := by
  induction seen with
  | root => exact .refl
  | node _ clock flag instant _ _ ih => exact ih.trans (clock.trans (flag.trans instant))

theorem Seen.sound (seen : Seen w chain sights v) : ∀ s ∈ sights, s.Sound := by
  induction seen with
  | root => simp
  | @node u v₁ v₂ v _ sights i a b _ _ _ instant ha hb ih =>
    intro s hs
    rcases List.mem_cons.mp hs with rfl | hs
    · refine ⟨a.causes, ?_⟩
      intro raised
      obtain ⟨at', hat⟩ := Option.isSome_iff_exists.mp (a.struck raised)
      obtain ⟨b', hb', later⟩ := (Steps.later instant).nodes i a ha
      rw [hb, Option.some.injEq] at hb'
      subst hb'
      simp [later.cancelledAt at' hat]
    · exact ih s hs

theorem Seen.clocks (seen : Seen w chain sights v) :
    (∀ s ∈ sights, s.now ≤ v.clock) ∧ sights.Pairwise fun s t => t.now ≤ s.now := by
  induction seen with
  | root => simp
  | @node u v₁ v₂ v _ sights i a b _ clock flag instant _ _ ih =>
    have before := (Steps.later clock).clock
    have after := (Steps.later (flag.trans instant)).clock
    refine ⟨?_, List.pairwise_cons.mpr ⟨?_, ih.2⟩⟩
    · intro s hs
      rcases List.mem_cons.mp hs with rfl | hs
      · exact after
      · have := ih.1 s hs
        omega
    · intro t ht
      have := ih.1 t ht
      exact Nat.le_trans this before

theorem Seen.shields (seen : Seen w chain sights v) (live : ∀ i ∈ chain, i < w.nodes.length) :
    sights.map (·.shield) = chain.map w.shieldOf := by
  induction seen with
  | root => rfl
  | @node u v₁ v₂ v above sights i a b outer clock flag instant ha hb ih =>
    have later : w.Later v₂ := Steps.later (outer.steps.trans (clock.trans flag))
    have same := later.shieldOf (live i List.mem_cons_self)
    have own : v₂.shieldOf i = a.shield := by simp [World.shieldOf, ha]
    have rest := ih fun j hj => live j (List.mem_cons_of_mem _ hj)
    simp only [List.map_cons, rest, ← same, own]

theorem Seen.nested {scope : ℕ} (seen : Seen w (w.chain scope) sights v)
    (narrowing : w.Narrowing) : Nested sights where
  clocks := seen.clocks.2
  graces := by
    have shields := seen.shields fun i => World.mem_chain
    have same : sights.filterMap (·.shield) = w.graces scope := by
      have := congrArg (List.filterMap id) shields
      simpa only [List.filterMap_map, Function.id_comp, World.graces] using this
    rw [same]
    exact narrowing scope

/-- A walk begun after another ended reads each node later. -/
theorem Seen.later {w' v' : World} {sights' : List Sight} (seen : Seen w chain sights v)
    (steps : Steps v w') (seen' : Seen w' chain sights' v') :
    List.Forall₂ Sight.Later sights sights' := by
  induction seen generalizing sights' v' with
  | root =>
    cases seen'
    exact .nil
  | @node u v₁ v₂ v above sights i a b outer clock flag instant ha hb ih =>
    cases seen' with
    | @node u' v₁' v₂' _ _ sights' _ a' b' outer' clock' flag' instant' ha' hb' =>
      have between : Steps v u' := steps.trans outer'.steps
      have clocks := (Steps.later (flag.trans (instant.trans (between.trans clock')))).clock
      have flags := Steps.later (instant.trans (between.trans (clock'.trans flag')))
      have instants := Steps.later (between.trans (clock'.trans (flag'.trans instant')))
      obtain ⟨a₂, ha₂, rose⟩ := flags.nodes i a ha
      rw [ha', Option.some.injEq] at ha₂
      subst ha₂
      obtain ⟨b₂, hb₂, stayed⟩ := instants.nodes i b hb
      rw [hb', Option.some.injEq] at hb₂
      subst hb₂
      refine .cons ⟨rfl, rose.shield, clocks, rose.flag, stayed.cancelledAt⟩ ?_
      exact ih (clock.trans (flag.trans (instant.trans steps))) outer'

/-! ## Cancellation -/

/-- In every history of mintings and cancels, walks interleaved with writes: a walk answers
the strongest unmasked strike and its outermost owner, a later walk answers no less, and what
passes a shield is in force below every shield nested in it. -/
theorem inForce_monotone_and_masked {w v : World} {scope : ℕ} {sights : List Sight}
    (reach : Reachable w) (live : scope < w.nodes.length)
    (seen : Seen w (w.chain scope) sights v) :
    ∃ found, inForce sights = some found ∧ Names found (unmasked sights) ∧
      (∀ w' v' sights', Steps v w' → Seen w' (w'.chain scope) sights' v' →
        ∃ found', inForce sights' = some found' ∧ rank found ≤ rank found') ∧
      ∀ below s above grace passing, sights = below ++ s :: above → s.shield = some grace →
        inForce above = some passing → ¬ s.Masks (unmasked above) →
          unmasked above <:+ unmasked sights ∧ rank passing ≤ rank found := by
  obtain ⟨found, hfound, names⟩ := inForce_names seen.sound
  refine ⟨found, hfound, names, ?_, ?_⟩
  · intro w' v' sights' steps seen'
    rw [(Steps.later (seen.steps.trans steps)).chain live] at seen'
    obtain ⟨found', hfound', names'⟩ := inForce_names seen'.sound
    refine ⟨found', hfound', names.rank_le names' ?_⟩
    intro u hu
    obtain ⟨u', hu', -, -, stronger⟩ := unmasked_kept (seen.later steps seen') u hu
    exact ⟨u', hu', stronger⟩
  · intro below s above grace passing split shield hpassing passes
    subst split
    have suffix := (seen.nested reach.narrowing).passes shield passes
    obtain ⟨passing', hpassing', names'⟩ :=
      inForce_names fun t (ht : t ∈ above) => seen.sound t (by simp [ht])
    rw [hpassing, Option.some.injEq] at hpassing'
    subst hpassing'
    exact ⟨suffix, names'.rank_le names fun u hu => ⟨u, suffix.subset hu, Nat.le_refl _⟩⟩

/-- A root, a cleanup of grace 3 under it, and the root cancelled five instants ago. -/
def World.cleanup : World :=
  let minted := (World.empty.mint none none (by simp)).mint (some 0) (some 3) (by simp [World.mint])
  ((minted.update 0 (·.stamp 0) fun v => v.later_stamp 0).update 0 (·.raise .cancelled)
    fun v => v.later_raise .cancelled).tick 5

/-- A cleanup under a cancelled root hears of it when its grace has run out. -/
theorem inForce_monotone_and_masked_cleanup :
    inForce [⟨1, some 3, 5, 0, none⟩, ⟨0, none, 5, 3, some 0⟩] = some (some (.cancelled, 0)) ∧
      Names (some (.cancelled, 0))
        (unmasked [⟨1, some 3, 5, 0, none⟩, ⟨0, none, 5, 3, some 0⟩]) := by
  have minted : Reachable _ :=
    (Relation.ReflTransGen.refl.tail (.root _)).tail (.shielded _ 0 3 (by simp [World.mint]))
  have reach : Reachable World.cleanup :=
    ((minted.tail (.stamp _ 0 0 (Nat.le_refl _))).tail (.raise _ 0 .cancelled (by decide))).tail (.tick _ 5)
  have seen : Seen World.cleanup (World.cleanup.chain 1)
      [⟨1, some 3, 5, 0, none⟩, ⟨0, none, 5, 3, some 0⟩] World.cleanup :=
    have outer := Seen.node (.root World.cleanup) .refl .refl .refl
      (show World.cleanup.nodes[0]? = some (World.cleanup.nodes.get ⟨0, by decide⟩) from rfl) rfl
    outer.node .refl .refl .refl
      (show World.cleanup.nodes[1]? = some (World.cleanup.nodes.get ⟨1, by decide⟩) from rfl) rfl
  obtain ⟨found, hfound, names, -⟩ := inForce_monotone_and_masked reach (by decide) seen
  have answer : found = some (.cancelled, 0) := by
    have : inForce [⟨1, some 3, 5, 0, none⟩, ⟨0, none, 5, 3, some 0⟩] =
        some (some (CancelCause.cancelled, 0)) := by decide
    simpa using hfound.symm.trans this
  rw [answer] at hfound names
  exact ⟨hfound, names⟩

end Ral.Process
