import Ral.Session.Ends

/-! # Forced evictions

The prefix of the context the harness takes out when it must, keeping what the newest items
weigh to a budget. Every plan is a legal eviction, and planning over and over comes to rest.
-/

namespace Ral.Session
open Ral.Record (Recorded Locus)

/-- The run from the first of either to the last of either. -/
def Span.hull (a b : Span) : Span where
  fst := min a.fst b.fst
  snd := max a.snd b.snd
  fst_le_snd := by
    have := a.fst_le_snd
    omega

def Item.isMaterial : Item → Bool
  | .eviction _ => true
  | .turn t => !t.records.isEmpty

section Weights
variable [Host]

def Item.bytes : Item → ℕ
  | .turn t => t.bytes
  | .eviction e => messageBytes (Item.eviction e).messages

def weight (items : List Item) : ℕ := (items.map Item.bytes).sum

@[simp] theorem weight_nil : weight [] = 0 := rfl

@[simp] theorem weight_cons (item : Item) (items : List Item) :
    weight (item :: items) = item.bytes + weight items := rfl

theorem weight_append (xs ys : List Item) : weight (xs ++ ys) = weight xs + weight ys := by
  simp [weight]

theorem weight_reverse (items : List Item) : weight items.reverse = weight items := by
  simp [weight]

namespace Context

def historyBytes (c : Context) : ℕ := (c.table.frontier.map Item.bytes).foldl saturatingAdd 0

def walkBack (keep spent : ℕ) : List Item → Option ℕ
  | [] => none
  | item :: older =>
    let spent := saturatingAdd spent item.bytes
    if spent > keep then some older.length else walkBack keep spent older

/-- The span a forced eviction would take to spend no more than `keep` bytes on what stays. -/
def planForcedEviction (c : Context) (keep : ℕ) : Option Span :=
  match c.table.frontier.reverse with
  | [] => none
  | last :: older =>
    let candidates := older.reverse
    (walkBack keep last.bytes older).bind fun through =>
      match (candidates.take (through + 1)).filter Item.isMaterial with
      | [] => none
      | [.eviction _] => none
      | _ => do
        let first ← candidates[0]?
        let final ← candidates[through]?
        some (first.span.hull final.span)

end Context

/-! ## The prefix to shed -/

/-- `kept` is the longest run of the newest items that weighs at most `keep`, the newest of
them whatever it weighs, and `shed` the prefix before it. -/
structure Divides (keep : ℕ) (items shed kept : List Item) : Prop where
  whole : items = shed ++ kept
  fits : (∃ newest, kept = [newest]) ∨ kept ≠ [] ∧ weight kept ≤ keep
  full : ∃ older item, shed = older ++ [item] ∧ keep < weight (item :: kept)

/-- A prefix an eviction of which would save nothing. -/
def Idle (shed : List Item) : Prop :=
  shed.filter Item.isMaterial = [] ∨ ∃ e, shed.filter Item.isMaterial = [.eviction e]

namespace Context

theorem walkBack_bounded {keep spent through : ℕ} {older : List Item}
    (h : walkBack keep spent older = some through) : keep < u64Max := by
  induction older generalizing spent with
  | nil => simp [walkBack] at h
  | cons item older ih =>
    unfold walkBack at h
    by_cases hover : saturatingAdd spent item.bytes > keep
    · unfold saturatingAdd at hover
      omega
    · rw [if_neg hover] at h
      exact ih h

/-- The walk stops at the first item that does not fit. -/
theorem walkBack_eq_some {keep spent through : ℕ} {older : List Item}
    (h : walkBack keep spent older = some through) :
    ∃ newer item rest, older = newer ++ item :: rest ∧ rest.length = through ∧
      (newer = [] ∨ spent + weight newer ≤ keep) ∧ keep < spent + weight newer + item.bytes := by
  induction older generalizing spent with
  | nil => simp [walkBack] at h
  | cons item older ih =>
    have hroom := walkBack_bounded h
    unfold walkBack at h
    by_cases hover : saturatingAdd spent item.bytes > keep
    · rw [if_pos hover] at h
      cases h
      refine ⟨[], item, older, rfl, rfl, Or.inl rfl, ?_⟩
      unfold saturatingAdd at hover
      simp only [weight_nil]
      omega
    · rw [if_neg hover] at h
      obtain ⟨newer, next, rest, rfl, hlength, hfits, hfull⟩ := ih h
      -- Nothing saturated: what is spent is still within a budget short of the largest value.
      have hspent : saturatingAdd spent item.bytes = spent + item.bytes := by
        unfold saturatingAdd at hover ⊢
        omega
      rw [hspent] at hfits hfull hover
      refine ⟨item :: newer, next, rest, rfl, hlength, Or.inr ?_, ?_⟩
      · rcases hfits with rfl | hfits
        · simp only [weight_cons, weight_nil]
          omega
        · simp only [weight_cons]
          omega
      · simp only [weight_cons]
        omega

theorem walkBack_eq_none {keep spent : ℕ} {older : List Item}
    (h : walkBack keep spent older = none) :
    older = [] ∨ min (spent + weight older) u64Max ≤ keep := by
  induction older generalizing spent with
  | nil => exact Or.inl rfl
  | cons item older ih =>
    unfold walkBack at h
    by_cases hover : saturatingAdd spent item.bytes > keep
    · rw [if_pos hover] at h
      cases h
    · rw [if_neg hover] at h
      unfold saturatingAdd at hover h
      right
      rcases ih h with rfl | hfits
      · simp only [weight_cons, weight_nil]
        omega
      · simp only [weight_cons]
        omega

omit [Host] in
theorem foldl_saturatingAdd (sizes : List ℕ) {spent : ℕ} (room : spent ≤ u64Max) :
    sizes.foldl saturatingAdd spent = min (spent + sizes.sum) u64Max := by
  induction sizes generalizing spent with
  | nil => simp [room]
  | cons size sizes ih =>
    have hstep : saturatingAdd spent size ≤ u64Max := by
      unfold saturatingAdd
      omega
    rw [List.foldl_cons, ih hstep, List.sum_cons]
    unfold saturatingAdd
    omega

theorem historyBytes_eq (c : Context) :
    c.historyBytes = min (weight c.table.frontier) u64Max := by
  unfold historyBytes
  rw [foldl_saturatingAdd _ (Nat.zero_le _), Nat.zero_add]
  rfl

/-- Where the walk stops, the plan is the run of the prefix it stops at. -/
theorem plan_of_walk {c : Context} {keep through : ℕ} {last : Item} {older : List Item}
    (newest : c.table.frontier.reverse = last :: older)
    (walked : walkBack keep last.bytes older = some through) :
    ∃ shed kept first final, Divides keep c.table.frontier shed kept ∧
      shed.head? = some first ∧ shed.getLast? = some final ∧
      c.planForcedEviction keep = match shed.filter Item.isMaterial with
        | [] => none
        | [.eviction _] => none
        | _ => some (first.span.hull final.span) := by
  obtain ⟨newer, item, rest, rfl, rfl, hfits, hfull⟩ := walkBack_eq_some walked
  have hcandidates : (newer ++ item :: rest).reverse =
      (rest.reverse ++ [item]) ++ newer.reverse := by simp
  have hfrontier : c.table.frontier = (rest.reverse ++ [item]) ++ (newer.reverse ++ [last]) := by
    have := congrArg List.reverse newest
    simpa using this
  have hlength : rest.length + 1 = (rest.reverse ++ [item]).length := by simp
  have hfinal : ((rest.reverse ++ [item]) ++ newer.reverse)[rest.length]? = some item := by
    rw [List.getElem?_append_left (by simp), List.getElem?_append_right (by simp)]
    simp
  obtain ⟨first, hfirst⟩ : ∃ first, (rest.reverse ++ [item]).head? = some first := by
    cases hh : (rest.reverse ++ [item]).head? with
    | none => simp at hh
    | some first => exact ⟨first, rfl⟩
  have hhead : ((rest.reverse ++ [item]) ++ newer.reverse)[0]? = some first := by
    rw [List.getElem?_append_left (by simp), ← List.head?_eq_getElem?, hfirst]
  refine ⟨rest.reverse ++ [item], newer.reverse ++ [last], first, item, ⟨hfrontier, ?_, ?_⟩,
    hfirst, by simp, ?_⟩
  · rcases hfits with rfl | hfits
    · exact Or.inl ⟨last, rfl⟩
    · right
      refine ⟨by simp, ?_⟩
      simp only [weight_append, weight_reverse, weight_cons, weight_nil]
      omega
  · refine ⟨rest.reverse, item, rfl, ?_⟩
    simp only [weight_append, weight_reverse, weight_cons, weight_nil]
    omega
  · unfold planForcedEviction
    simp only [newest, walked, Option.bind_some, hcandidates, hlength, List.take_left]
    rw [hhead, hfinal]
    rfl

/-- What a plan takes and what it leaves. -/
theorem plan_eq_some {c : Context} {keep : ℕ} {span : Span}
    (h : c.planForcedEviction keep = some span) :
    ∃ shed kept first final, Divides keep c.table.frontier shed kept ∧ ¬ Idle shed ∧
      shed.head? = some first ∧ shed.getLast? = some final ∧
      span = first.span.hull final.span := by
  cases hf : c.table.frontier.reverse with
  | nil => simp [planForcedEviction, hf] at h
  | cons last older =>
    cases hw : walkBack keep last.bytes older with
    | none => simp [planForcedEviction, hf, hw] at h
    | some through =>
      obtain ⟨shed, kept, first, final, hdivides, hfirst, hfinal, hplan⟩ := plan_of_walk hf hw
      rw [hplan] at h
      refine ⟨shed, kept, first, final, hdivides, ?_, hfirst, hfinal, ?_⟩
      · intro hidle
        rcases hidle with hidle | ⟨e, hidle⟩ <;> simp [hidle] at h
      · split at h
        · cases h
        · cases h
        · cases h
          rfl

/-- Nothing is planned where everything fits, where nothing is older than the newest, or where
the prefix to shed would save nothing. -/
theorem plan_eq_none {c : Context} {keep : ℕ} (h : c.planForcedEviction keep = none) :
    c.historyBytes ≤ keep ∨ c.table.frontier.length ≤ 1 ∨
      ∃ shed kept, Divides keep c.table.frontier shed kept ∧ Idle shed := by
  cases hf : c.table.frontier.reverse with
  | nil =>
    right
    left
    simp [List.reverse_eq_nil_iff.mp hf]
  | cons last older =>
    have hlength := congrArg List.length hf
    have hweight := congrArg weight hf
    rw [weight_reverse, weight_cons] at hweight
    cases hw : walkBack keep last.bytes older with
    | none =>
      rcases walkBack_eq_none hw with rfl | hfits
      · right
        left
        simpa using hlength.le
      · left
        rw [historyBytes_eq, hweight]
        exact hfits
    | some through =>
      obtain ⟨shed, kept, first, final, hdivides, -, -, hplan⟩ := plan_of_walk hf hw
      right
      right
      refine ⟨shed, kept, hdivides, ?_⟩
      rw [hplan] at h
      split at h
      · next heq => exact Or.inl heq
      · next e heq => exact Or.inr ⟨e, heq⟩
      · cases h

end Context

end Weights

/-! ## What the frontier's items rest on -/

namespace Table

/-- An item of the frontier opens and ends at turns that are not withdrawn. -/
theorem ends_of_frontier {table : Table} (sound : table.ledger.Sound) (ended : table.ledger.Ended)
    {i : Item} (hi : i ∈ table.frontier) {id : ℕ} (hid : id = i.span.fst ∨ id = i.span.snd) :
    ∃ t, table.turn id = some t ∧ t.location ≠ .withdrawn := by
  obtain ⟨hmem, hr⟩ := mem_frontier.mp hi
  rcases mem_unsorted.mp hmem with ⟨e, he, rfl⟩ | ⟨t, ht, rfl⟩
  · have hstamp : (e.1.span, e.2) ∈ Ledger.stampAll table.ledger.gone table.ledger.spans := by
      rw [← sound.stamped]
      exact List.mem_map_of_mem (f := fun x : Eviction × Location => (x.1.span, x.2)) he
    have hspan : e.1.span ∈ table.ledger.spans := by
      rw [ledger_spans]
      exact List.mem_map_of_mem (f := fun x : Eviction × Location => x.1.span) he
    have hfst : table.ledger.gone e.1.span.fst = false := Ledger.gone_of_stamped hstamp hr
    have hsnd : table.ledger.gone e.1.span.snd = false := by
      rw [Bool.eq_false_iff]
      intro hg
      simp [ended e.1.span hspan hg] at hfst
    have hcarried := sound.carried e.1.span hspan
    have hplaced : ∃ loc, (id, loc) ∈ table.ledger.turns ∧ loc ≠ .withdrawn := by
      rcases hid with rfl | rfl
      · exact Ledger.exists_of_not_gone hcarried.1 hfst
      · exact Ledger.exists_of_not_gone hcarried.2 hsnd
    obtain ⟨loc, hloc, hw⟩ := hplaced
    obtain ⟨t, ht, rfl, rfl⟩ := mem_ledger.mp hloc
    exact ⟨t, turn_eq_some sound.ordered ht, hw⟩
  · have hsame : id = t.id := by rcases hid with rfl | rfl <;> rfl
    have hresident : t.location = .resident := hr
    refine ⟨t, hsame ▸ turn_eq_some sound.ordered ht, ?_⟩
    simp [hresident]

theorem uncut_of_frontier {table : Table} (sound : table.ledger.Sound) {i : Item}
    (hi : i ∈ table.frontier) : ∀ s ∈ table.spans, s ≤ i.span ∨ Intervals.Apart s i.span := by
  obtain ⟨hmem, hr⟩ := mem_frontier.mp hi
  rcases mem_unsorted.mp hmem with ⟨e, he, rfl⟩ | ⟨t, ht, rfl⟩
  · exact outermost_of_resident sound he hr
  · intro s hs
    obtain ⟨e, he, rfl⟩ := List.mem_map.mp hs
    exact Or.inr (turn_apart_eviction sound ht hr he)

/-- The newest turn is the newest item, while it is in the context. -/
theorem newest_of_resident {table : Table} (sound : table.ledger.Sound)
    (ended : table.ledger.Ended) {init : List Turn} {last : Turn}
    (newest : table.turns = init ++ [last]) (resident : last.location = .resident) :
    table.frontier.getLast? = some (.turn last) := by
  have hmem : Item.turn last ∈ table.frontier :=
    mem_frontier.mpr ⟨mem_unsorted.mpr (Or.inr ⟨last, by simp [newest], rfl⟩), resident⟩
  rcases List.eq_nil_or_concat' table.frontier with hnil | ⟨front, final, hfrontier⟩
  · simp [hnil] at hmem
  · have hordered := frontier_ordered sound
    have hids := sound.ordered
    rw [hfrontier] at hmem hordered
    rw [ledger_ids, newest, List.map_append, List.pairwise_append] at hids
    rw [hfrontier, List.getLast?_concat]
    rcases List.mem_append.mp hmem with hfront | hfinal
    · -- An item after the newest turn would open at a turn newer still.
      obtain ⟨t, ht, -⟩ := ends_of_frontier sound ended (i := final) (by simp [hfrontier])
        (Or.inl rfl)
      have hid : t.id = final.span.fst := by simpa using List.find?_some ht
      have hturn := List.mem_of_find?_eq_some ht
      have hlt := (List.pairwise_append.mp hordered).2.2 _ hfront final (by simp)
      have hlast : last.id < final.span.fst := hlt
      rw [newest] at hturn
      rcases List.mem_append.mp hturn with hturn | hturn
      · have := hids.2.2 t.id (List.mem_map_of_mem hturn) last.id (by simp)
        omega
      · rw [List.mem_singleton.mp hturn] at hid
        omega
    · rw [List.mem_singleton.mp hfinal]

end Table

namespace Context

theorem unclosed_newest {c : Context} (sound : c.table.ledger.Sound)
    (ended : c.table.ledger.Ended) {id : ℕ} (h : c.unclosedTurn = some id) :
    ∃ newest, c.table.frontier.getLast? = some newest ∧ newest.span = .single id := by
  unfold unclosedTurn at h
  rw [Option.map_eq_some_iff] at h
  obtain ⟨last, hlast, rfl⟩ := h
  obtain ⟨hnewest, hcond⟩ := Option.filter_eq_some_iff.mp hlast
  obtain ⟨init, hinit⟩ := List.getLast?_eq_some_iff.mp hnewest
  have hresident : last.location = .resident := by
    simp only [Bool.and_eq_true] at hcond
    exact Turn.isResident_eq.mp hcond.1
  exact ⟨.turn last, Table.newest_of_resident sound ended hinit hresident, rfl⟩

/-- A run of items short of the newest may be evicted. -/
theorem evictable_of_frontier {c : Context} (sound : c.table.ledger.Sound)
    (ended : c.table.ledger.Ended) {first final newest : Item} {span : Span}
    (hfirst : first ∈ c.table.frontier) (hfinal : final ∈ c.table.frontier)
    (hnewest : c.table.frontier.getLast? = some newest) (hlt : final.span.snd < newest.span.fst)
    (opens : span.fst = first.span.fst) (closes : span.snd = final.span.snd) :
    Evictable c span := by
  constructor
  · exact Table.ends_of_frontier sound ended hfirst (Or.inl opens)
  · exact Table.ends_of_frontier sound ended hfinal (Or.inr closes)
  · intro id hid hin
    obtain ⟨newest', hnewest', hspan⟩ := unclosed_newest sound ended hid
    rw [hnewest] at hnewest'
    cases hnewest'
    rw [hspan] at hlt
    have : id ≤ final.span.snd := closes ▸ hin.2
    simp only [Span.single_fst] at hlt
    omega
  · intro s hs hcut
    have hordered := s.fst_le_snd
    have hends := first.span.fst_le_snd
    rcases Table.uncut_of_frontier sound hfirst s hs with hle | hapart
    · have : first.span.fst ≤ s.fst := hle.1
      omega
    · rcases hapart with hapart | hapart <;> omega
  · intro s hs hcut
    -- The last turn there is lies past the run, so the end's successor is a turn id.
    obtain ⟨t, ht, -⟩ := Table.ends_of_frontier sound ended (List.mem_of_getLast? hnewest)
      (Or.inl rfl)
    have hroom : newest.span.fst ≤ u64Max := by
      apply sound.bounded
      rw [Table.ledger_ids]
      have hid : t.id = newest.span.fst := by simpa using List.find?_some ht
      exact hid ▸ List.mem_map_of_mem (List.mem_of_find?_eq_some ht)
    have hends := final.span.fst_le_snd
    have hnext : final.span.snd + 1 ≤ u64Max := le_trans hlt hroom
    have hsat : saturatingAdd span.snd 1 = final.span.snd + 1 := by
      unfold saturatingAdd
      rw [closes, Nat.min_eq_left hnext]
    rw [hsat] at hcut
    rcases Table.uncut_of_frontier sound hfinal s hs with hle | hapart
    · have : s.snd ≤ final.span.snd := hle.2
      omega
    · rcases hapart with hapart | hapart <;> omega

end Context

/-! ## What an eviction leaves -/

theorem filter_map_fixed {α : Type} {f : α → α} {p q : α → Bool} {l : List α}
    (keeps : ∀ x ∈ l, p (f x) = (p x && q x)) (fixes : ∀ x ∈ l, q x → f x = x) :
    (l.map f).filter p = (l.filter p).filter q := by
  induction l with
  | nil => rfl
  | cons x l ih =>
    have hrest := ih (fun y hy => keeps y (List.mem_cons_of_mem x hy))
      (fun y hy => fixes y (List.mem_cons_of_mem x hy))
    have hkeeps := keeps x List.mem_cons_self
    have hfixes := fixes x List.mem_cons_self
    rw [List.map_cons, List.filter_cons, hkeeps, hrest, List.filter_cons]
    cases hp : p x with
    | false => simp
    | true =>
      cases hq : q x with
      | false => simp [hq]
      | true => simp [hq, hfixes hq]

namespace Item

def departing (source : AgentId) (span : Span) : Item → Item
  | .turn t =>
    .turn (if Span.single t.id ≤ span then t.depart source (some span) else t)
  | .eviction e => .eviction (if e.1.span ≤ span then (e.1, e.2.depart (some span)) else e)

theorem departing_isResident (source : AgentId) (span : Span) (i : Item) :
    (i.departing source span).isResident = (i.isResident && !decide (i.span ≤ span)) := by
  cases i with
  | turn t =>
    by_cases hle : Span.single t.id ≤ span
    · cases hl : t.location <;>
        simp [departing, isResident, location, Item.span, hle, hl, Location.depart,
          Location.isResident]
    · simp [departing, isResident, location, Item.span, hle]
  | eviction e =>
    by_cases hle : e.1.span ≤ span
    · cases hl : e.2 <;>
        simp [departing, isResident, location, Item.span, hle, hl, Location.depart,
          Location.isResident]
    · simp [departing, isResident, location, Item.span, hle]

theorem departing_eq (source : AgentId) {span : Span} {i : Item} (h : ¬ i.span ≤ span) :
    i.departing source span = i := by
  cases i with
  | turn t => simp only [departing, if_neg (show ¬ Span.single t.id ≤ span from h)]
  | eviction e => simp only [departing, if_neg (show ¬ e.1.span ≤ span from h)]

end Item

namespace Table

theorem unsorted_evict (table : Table) (e : Eviction) :
    (table.evict e).unsorted =
      .eviction (e, .resident) :: table.unsorted.map (Item.departing table.source e.span) := by
  simp only [unsorted, evict, depart, List.reverse_append, List.reverse_singleton,
    List.map_cons, List.cons_append, List.map_append, List.map_map, List.map_reverse]
  rfl

theorem frontier_evict_perm (table : Table) (e : Eviction) :
    (table.evict e).frontier.Perm
      (.eviction (e, .resident) :: table.frontier.filter fun i => !decide (i.span ≤ e.span)) := by
  have hafter := (table.evict e).items_perm.filter Item.isResident
  have hbefore := (table.items_perm.filter Item.isResident).filter
    fun i => !decide (i.span ≤ e.span)
  rw [unsorted_evict, List.filter_cons_of_pos (by rfl)] at hafter
  rw [filter_map_fixed (q := fun i => !decide (i.span ≤ e.span))
    (fun i _ => i.departing_isResident table.source e.span)
    (fun i _ h => Item.departing_eq table.source (by simpa using h))] at hafter
  exact hafter.trans (hbefore.symm.cons _)

/-- The note of a prefix stands in the prefix's place. -/
theorem frontier_evict {table : Table} {e : Eviction} {shed kept : List Item}
    (sound : (table.evict e).ledger.Sound) (ordered : kept.Pairwise fun a b =>
      a.span.snd < b.span.fst) (whole : table.frontier = shed ++ kept)
    (taken : ∀ i ∈ shed, i.span ≤ e.span) (left : ∀ i ∈ kept, e.span.snd < i.span.fst) :
    (table.evict e).frontier = .eviction (e, .resident) :: kept := by
  have hperm := frontier_evict_perm table e
  have hshed : (shed.filter fun i => !decide (i.span ≤ e.span)) = [] := by
    rw [List.filter_eq_nil_iff]
    intro i hi
    simp [taken i hi]
  have hkept : (kept.filter fun i => !decide (i.span ≤ e.span)) = kept := by
    rw [List.filter_eq_self]
    intro i hi
    have hlt := left i hi
    have hends := i.span.fst_le_snd
    simp only [Bool.not_eq_true', decide_eq_false_iff_not]
    intro hle
    have : i.span.snd ≤ e.span.snd := hle.2
    omega
  rw [whole, List.filter_append, hshed, hkept, List.nil_append] at hperm
  apply List.Perm.eq_of_pairwise _ (frontier_ordered sound) _ hperm
  · intro a b _ _ hab hba
    have ha := a.span.fst_le_snd
    have hb := b.span.fst_le_snd
    omega
  · rw [List.pairwise_cons]
    exact ⟨left, ordered⟩

end Table

/-! ## Plans -/

/-- The first of a run of items opens before any of them, and the last ends after. -/
theorem within_run {items : List Item} {first final : Item}
    (ordered : items.Pairwise fun a b => a.span.snd < b.span.fst)
    (hfirst : items.head? = some first) (hfinal : items.getLast? = some final) :
    ∀ i ∈ items, first.span.fst ≤ i.span.fst ∧ i.span.snd ≤ final.span.snd := by
  obtain ⟨tail, htail⟩ := List.head?_eq_some_iff.mp hfirst
  obtain ⟨init, hinit⟩ := List.getLast?_eq_some_iff.mp hfinal
  intro i hi
  have hends := i.span.fst_le_snd
  constructor
  · have hordered := htail ▸ ordered
    have hmem := htail ▸ hi
    have hfirsts := first.span.fst_le_snd
    rcases List.mem_cons.mp hmem with rfl | hmem
    · exact le_refl _
    · have := (List.pairwise_cons.mp hordered).1 i hmem
      omega
  · have hordered := hinit ▸ ordered
    have hmem := hinit ▸ hi
    have hfinals := final.span.fst_le_snd
    rcases List.mem_append.mp hmem with hmem | hmem
    · have := (List.pairwise_append.mp hordered).2.2 i hmem final (by simp)
      omega
    · rw [List.mem_singleton.mp hmem]

section Plans
variable [Host]

namespace Context

structure Plans (c : Context) (keep : ℕ) (span : Span) (shed kept : List Item) : Prop where
  divides : Divides keep c.table.frontier shed kept
  worthwhile : ¬ Idle shed
  evictable : Evictable c span
  taken : ∀ i ∈ shed, i.span ≤ span
  left : ∀ i ∈ kept, span.snd < i.span.fst

theorem plan_spec {c : Context} {keep : ℕ} {span : Span} (sound : c.table.ledger.Sound)
    (ended : c.table.ledger.Ended) (h : c.planForcedEviction keep = some span) :
    ∃ shed kept, c.Plans keep span shed kept := by
  obtain ⟨shed, kept, first, final, hdivides, hworth, hfirst, hfinal, rfl⟩ := plan_eq_some h
  have hordered := Table.frontier_ordered sound
  rw [hdivides.whole, List.pairwise_append] at hordered
  obtain ⟨hshed, -, hapart⟩ := hordered
  have hrun := within_run hshed hfirst hfinal
  have hfirst_mem := List.mem_of_head? hfirst
  have hfinal_mem := List.mem_of_getLast? hfinal
  have hopens : (first.span.hull final.span).fst = first.span.fst :=
    Nat.min_eq_left (hrun final hfinal_mem).1
  have hcloses : (first.span.hull final.span).snd = final.span.snd :=
    Nat.max_eq_right (hrun first hfirst_mem).2
  have hleft : ∀ i ∈ kept, (first.span.hull final.span).snd < i.span.fst := by
    intro i hi
    rw [hcloses]
    exact hapart final hfinal_mem i hi
  obtain ⟨newest, hnewest⟩ : ∃ newest, kept.getLast? = some newest := by
    cases hk : kept.getLast? with
    | none =>
      rw [List.getLast?_eq_none_iff] at hk
      rcases hdivides.fits with ⟨newest, heq⟩ | ⟨hne, -⟩
      · simp [hk] at heq
      · exact absurd hk hne
    | some newest => exact ⟨newest, rfl⟩
  have hlast : c.table.frontier.getLast? = some newest := by
    rw [hdivides.whole, List.getLast?_append, hnewest]
    rfl
  have hmem : ∀ i ∈ shed, i ∈ c.table.frontier := by
    intro i hi
    rw [hdivides.whole]
    exact List.mem_append_left _ hi
  refine ⟨shed, kept, hdivides, hworth, ?_, ?_, hleft⟩
  · apply evictable_of_frontier sound ended (hmem first hfirst_mem) (hmem final hfinal_mem) hlast
      _ hopens hcloses
    rw [← hcloses]
    exact hleft newest (List.mem_of_getLast? hnewest)
  · intro i hi
    constructor
    · exact hopens.trans_le (hrun i hi).1
    · exact (hrun i hi).2.trans_eq hcloses.symm

theorem Plans.frontier {c : Context} {keep : ℕ} {span : Span} {shed kept : List Item}
    (h : c.Plans keep span shed kept) (sound : c.table.ledger.Sound) (note : Option String)
    (authority : EditAuthority) :
    (c.table.evict ⟨span, note, authority⟩).frontier =
      .eviction (⟨span, note, authority⟩, .resident) :: kept := by
  have hordered := Table.frontier_ordered sound
  rw [h.divides.whole, List.pairwise_append] at hordered
  apply Table.frontier_evict _ hordered.2.1 h.divides.whole h.taken h.left
  rw [Table.ledger_evict]
  exact sound.evict (h.evictable.ledger sound)

/-! ## Planning over and over -/

def burden (items : List Item) : ℕ := items.length + items.countP Item.isTurn

theorem burden_of_worthwhile {keep : ℕ} {items shed kept : List Item}
    (divides : Divides keep items shed kept) (worthwhile : ¬ Idle shed) : 1 < burden shed := by
  obtain ⟨older, item, rfl, -⟩ := divides.full
  unfold burden
  rw [List.length_append, List.countP_append]
  cases older with
  | cons x older =>
    simp only [List.length_cons, List.length_nil]
    omega
  | nil =>
    cases item with
    | turn t => simp [Item.isTurn]
    | eviction e =>
      exfalso
      apply worthwhile
      right
      exact ⟨e, rfl⟩

omit [Host] in
theorem burden_append (xs ys : List Item) : burden (xs ++ ys) = burden xs + burden ys := by
  simp only [burden, List.length_append, List.countP_append]
  omega

/-- Evictions one after another, each of the span planned for one budget. -/
inductive Forced (keep : ℕ) : Context → ℕ → Context → Prop
  | refl (c : Context) : Forced keep c 0 c
  | step {c mid c' : Context} {n : ℕ} {span : Span} {locus : Locus} {note : Option String}
      {authority : EditAuthority} (planned : c.planForcedEviction keep = some span)
      (applied : c.stepTranscript ⟨locus, .evicted ⟨span, note, authority⟩⟩ = .ok mid)
      (rest : Forced keep mid n c') : Forced keep c (n + 1) c'

/-- A planned eviction is folded, and makes the context lighter by an item or a turn. -/
theorem apply_plan {c : Context} {keep : ℕ} {span : Span} (sound : c.table.ledger.Sound)
    (ended : c.table.ledger.Ended) (planned : c.planForcedEviction keep = some span)
    (locus : Locus) (note : Option String) (authority : EditAuthority) :
    ∃ mid, c.stepTranscript ⟨locus, .evicted ⟨span, note, authority⟩⟩ = .ok mid ∧
      mid.table.ledger.Sound ∧ mid.table.ledger.Ended ∧
      burden mid.table.frontier < burden c.table.frontier := by
  obtain ⟨shed, kept, hplans⟩ := plan_spec sound ended planned
  have hjudged : c.judge (c.len + 1) (.evicted ⟨span, note, authority⟩) = none := by
    rw [judge_eq_none]
    refine ⟨rfl, by simp [opens], ?_, by simp [extended]⟩
    simp only [kindRefusal, cutRefusal_eq_none.mpr hplans.evictable, Option.map_none]
  have hstep : c.stepTranscript ⟨locus, .evicted ⟨span, note, authority⟩⟩ = .ok
      { c with
        table := c.table.evict ⟨span, note, authority⟩
        newestEdit := some c.len
        len := c.len + 1 } := by
    unfold stepTranscript
    dsimp only
    rw [hjudged]
    rfl
  have hchange := change_of_step hstep
  have hrange : (Transcript.evicted ⟨span, note, authority⟩).InRange := by
    simp [Transcript.InRange, opens]
  refine ⟨_, hstep, hchange.sound sound hrange,
    hchange.ended sound ended (Transcript.ended_of_plain (by simp)), ?_⟩
  have hworth := burden_of_worthwhile hplans.divides hplans.worthwhile
  dsimp only
  rw [hplans.frontier sound, hplans.divides.whole, burden_append]
  simp only [burden, List.length_cons, List.countP_cons, Item.isTurn] at hworth ⊢
  simp only [Bool.false_eq_true, if_false]
  omega

theorem Forced.holds {c c' : Context} {keep n : ℕ} (h : Forced keep c n c')
    (sound : c.table.ledger.Sound) (ended : c.table.ledger.Ended) :
    c'.table.ledger.Sound ∧ c'.table.ledger.Ended ∧
      n + burden c'.table.frontier ≤ burden c.table.frontier := by
  induction h with
  | refl c => exact ⟨sound, ended, by omega⟩
  | @step c mid c' n span locus note authority planned applied rest ih =>
    obtain ⟨mid', hstep, hsound, hended, hless⟩ :=
      apply_plan sound ended planned locus note authority
    rw [applied] at hstep
    cases hstep
    obtain ⟨hsound', hended', hrest⟩ := ih hsound hended
    exact ⟨hsound', hended', by omega⟩

theorem exists_rest {c : Context} {keep : ℕ} (sound : c.table.ledger.Sound)
    (ended : c.table.ledger.Ended) :
    ∃ n c', Forced keep c n c' ∧ c'.planForcedEviction keep = none := by
  induction hb : burden c.table.frontier using Nat.strong_induction_on generalizing c with
  | _ b ih =>
    cases hplan : c.planForcedEviction keep with
    | none => exact ⟨0, c, .refl c, hplan⟩
    | some span =>
      obtain ⟨mid, hstep, hsound, hended, hless⟩ := apply_plan sound ended hplan
        ⟨⟨1, 0⟩, ⟨0, 1⟩, ⟨0, by decide⟩⟩ none .harness
      obtain ⟨n, c', hrest, hnone⟩ := ih _ (hb ▸ hless) hsound hended rfl
      exact ⟨n + 1, c', .step hplan hstep hrest, hnone⟩

structure ForcedEvictions (c : Context) (keep : ℕ) : Prop where
  written : ∀ id, c.unclosedTurn = some id →
    ∃ newest, c.table.frontier.getLast? = some newest ∧ newest.span = .single id
  /-- and nothing stands against the run planned, -/
  legal : ∀ span, c.planForcedEviction keep = some span → c.cutRefusal span = none
  spares : ∀ span newest, c.planForcedEviction keep = some span →
    c.table.frontier.getLast? = some newest → span.snd < newest.span.fst
  /-- What stays beside the note is within the budget, or only the newest item. -/
  enough : ∀ span, c.planForcedEviction keep = some span →
    ∃ shed kept, c.table.frontier = shed ++ kept ∧ (∀ i ∈ shed, i.span ≤ span) ∧
      (∀ note authority, (c.table.evict ⟨span, note, authority⟩).frontier =
        .eviction (⟨span, note, authority⟩, .resident) :: kept) ∧
      (weight kept ≤ keep ∨ ∃ newest, kept = [newest])
  /-- No plan is for want of need, of anything older than the newest, or of anything to save. -/
  idle : c.planForcedEviction keep = none → c.historyBytes ≤ keep ∨ c.table.frontier.length ≤ 1 ∨
    ∃ shed kept, Divides keep c.table.frontier shed kept ∧ Idle shed
  bounded : ∀ n c', Forced keep c n c' → n ≤ 2 * c.table.frontier.length
  applies : ∀ n c' span, Forced keep c n c' → c'.planForcedEviction keep = some span →
    ∀ locus note authority, ∃ mid,
      c'.stepTranscript ⟨locus, .evicted ⟨span, note, authority⟩⟩ = .ok mid
  /-- and they end where nothing is planned. -/
  rests : ∃ n c', Forced keep c n c' ∧ c'.planForcedEviction keep = none

theorem forcedEvictions_of_sound {c : Context} (sound : c.table.ledger.Sound)
    (ended : c.table.ledger.Ended) (keep : ℕ) : c.ForcedEvictions keep := by
  constructor
  · intro id hid
    exact unclosed_newest sound ended hid
  · intro span hplan
    obtain ⟨shed, kept, hplans⟩ := plan_spec sound ended hplan
    exact cutRefusal_eq_none.mpr hplans.evictable
  · intro span newest hplan hnewest
    obtain ⟨shed, kept, hplans⟩ := plan_spec sound ended hplan
    apply hplans.left
    have hne : kept ≠ [] := by
      rcases hplans.divides.fits with ⟨newest, rfl⟩ | ⟨hne, -⟩
      · simp
      · exact hne
    rw [hplans.divides.whole, List.getLast?_append_of_ne_nil _ hne] at hnewest
    exact List.mem_of_getLast? hnewest
  · intro span hplan
    obtain ⟨shed, kept, hplans⟩ := plan_spec sound ended hplan
    refine ⟨shed, kept, hplans.divides.whole, hplans.taken, hplans.frontier sound, ?_⟩
    rcases hplans.divides.fits with hnewest | ⟨-, hfits⟩
    · exact Or.inr hnewest
    · exact Or.inl hfits
  · exact plan_eq_none
  · intro n c' hforced
    obtain ⟨-, -, hburden⟩ := hforced.holds sound ended
    have hcount := c.table.frontier.countP_le_length (p := Item.isTurn)
    have hle : n ≤ burden c.table.frontier := by omega
    unfold burden at hle
    omega
  · intro n c' span hforced hplan locus note authority
    obtain ⟨hsound, hended, -⟩ := hforced.holds sound ended
    obtain ⟨mid, hstep, -⟩ := apply_plan hsound hended hplan locus note authority
    exact ⟨mid, hstep⟩
  · exact exists_rest sound ended

end Context

namespace AgentLog

/-- Whatever a log has been through, a forced eviction of its context is legal and does enough,
and planning for the same budget comes to rest. -/
theorem forced_evictions_settle {log : AgentLog} (h : Reachable log) (keep : ℕ) :
    log.context.ForcedEvictions keep :=
  have holds := h.founded.holds
  Context.forcedEvictions_of_sound holds.1 holds.2 keep

end AgentLog

end Plans

namespace AgentLog

theorem Reachable.next [Host] {log : AgentLog} (before : Reachable log) (writer : Writer)
    (op : Operation) (commits : (op.run writer log).1 = .committed) :
    Reachable (op.run writer log).2 :=
  .ran before Prod.mk.eta.symm (by simp [commits])

theorem awaiting_reachable [Host] : Reachable (awaiting ["a"]) := by
  have hopened : Reachable (AgentLog.create steadyWriter 1 none "").2 :=
    .root (show AgentLog.create steadyWriter 1 none "" = (.committed, _) from rfl)
  have hprompted := hopened.next steadyWriter (.appendUser "go" none .human) rfl
  exact hprompted.next steadyWriter (.appendAssistant (.assistant "calling") ["a"] none) rfl

/-- A run with no files to read back, every message a byte. -/
@[reducible] def bytewise : Host :=
  ⟨fun _ _ => .ok .other, fun _ => "record.jsonl", fun _ => 1, fun text => text⟩

/-- A prompt and a call whose result is awaited: the prompt may go. -/
theorem forced_evictions_settle_awaiting : ∃ (_ : Host) (log : AgentLog),
    log.context.unclosedTurn = some 2 ∧ log.context.planForcedEviction 0 = some (.single 1) ∧
      log.context.ForcedEvictions 0 :=
  ⟨bytewise, @awaiting bytewise ["a"], by decide, by decide,
    @forced_evictions_settle bytewise _ (@awaiting_reachable bytewise) 0⟩

end AgentLog

end Ral.Session
