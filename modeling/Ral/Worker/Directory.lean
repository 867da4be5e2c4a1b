import Ral.Worker.Registry

/-! # Seats, stamps and reaps -/

namespace Ral.Worker

theorem mem_extractIf {taken : Samples} {epoch n : ℕ} {entries : List WorkerEntry} {e : WorkerEntry}
    (h : e ∈ extractIf taken epoch n entries) :
    e ∈ entries ∨ ∃ e₀ ∈ entries, fate taken epoch n e₀ = .stamped ∧
      e = { e₀ with settledEpoch := some epoch } := by
  obtain ⟨e₀, mem, out⟩ := List.mem_filterMap.mp h
  split at out
  · cases out
    exact Or.inl mem
  · next stamped =>
      cases out
      exact Or.inr ⟨e₀, mem, stamped, rfl⟩
  · cases out

theorem extractIf_perm (taken : Samples) (epoch n : ℕ) (entries : List WorkerEntry) :
    ((extractIf taken epoch n entries).map WorkerEntry.id ++
      (judged .reaped taken epoch n entries).map fun v => v.entry.id).Perm (entries.map WorkerEntry.id) := by
  induction entries with
  | nil => exact .refl _
  | cons e entries ih =>
    cases h : fate taken epoch n e with
    | kept => simpa [extractIf, judged, h] using ih
    | stamped => simpa [extractIf, judged, h] using ih
    | reaped =>
      have rest := ih.cons e.id
      simp only [extractIf, judged, List.filterMap_cons, h, List.filter_cons, decide_true, if_true,
        List.map_cons] at rest ⊢
      exact List.perm_middle.trans rest

theorem mem_judged {which : Fate} {taken : Samples} {epoch n : ℕ} {entries : List WorkerEntry} {v : Verdict}
    (h : v ∈ judged which taken epoch n entries) :
    v.entry ∈ entries ∧ fate taken epoch n v.entry = which ∧ v.epoch = epoch ∧ v.retention = n ∧
      v.taken = taken := by
  obtain ⟨e, mem, rfl⟩ := List.mem_map.mp h
  have := List.mem_filter.mp mem
  exact ⟨this.1, by simpa using this.2, rfl, rfl, rfl⟩

theorem fate_unheld {taken : Samples} {epoch n : ℕ} {e : WorkerEntry} {f : Fate}
    (h : fate taken epoch n e = f) (judged : f ≠ .kept) : isHeld taken e = false := by
  unfold fate at h
  split at h
  · exact absurd h.symm judged
  · next unheld => simpa using unheld

theorem fate_reaped {taken : Samples} {epoch n : ℕ} {e : WorkerEntry} (h : fate taken epoch n e = .reaped) :
    ∃ stamp, e.settledEpoch = some stamp ∧ n ≤ epoch - stamp := by
  unfold fate at h
  split at h
  · simp at h
  · split at h
    · simp at h
    · next stamp found =>
        split at h
        · next old => exact ⟨stamp, found, old⟩
        · simp at h

namespace System

/-! ## Who is listed -/

/-- The workers filed and where each one is: listed once, consumed, or reaped once. -/
structure Filed (s : System) : Prop where
  listed : ∀ id ∈ s.registered, (∃ e ∈ s.listing, e.id = id) ∨ s.phase id = .consumed ∨
    ∃ r ∈ s.reaps, r.entry.id = id
  once : (s.listing.map WorkerEntry.id ++ s.reaps.map fun r => r.entry.id).Nodup
  known : ∀ id ∈ s.listing.map WorkerEntry.id ++ s.reaps.map (fun r => r.entry.id), id ∈ s.registered

variable {s s' : System}

theorem advance_from_live {p q : Phase} (h : Phase.Advance p q) : p ≠ .consumed := by
  cases h <;> simp

theorem Filed.step (f : s.Filed) (step : Step s s') : s'.Filed := by
  cases step.change with
  | none list same =>
    refine ⟨?_, ?_, ?_⟩
    · rw [same.registered, list, same.phase, same.reaps]
      exact f.listed
    · rw [list, same.reaps]
      exact f.once
    · rw [list, same.reaps, same.registered]
      exact f.known
  | advance id p next eq =>
    subst eq
    refine ⟨fun n hn => ?_, f.once, f.known⟩
    rcases f.listed n hn with listed | consumed | reaped
    · exact Or.inl listed
    · refine Or.inr (Or.inl ?_)
      have other : n ≠ id := by
        rintro rfl
        exact advance_from_live next consumed
      simp [other, consumed]
    · exact Or.inr (Or.inr reaped)
  | filed entry new unstamped list same =>
    have fresh : entry.id ∉ s.listing.map WorkerEntry.id ++ s.reaps.map fun r => r.entry.id :=
      fun mem => new (f.known _ mem)
    rcases list with list | ⟨list, consumed⟩
    · refine ⟨fun n hn => ?_, ?_, fun n hn => ?_⟩
      · rw [same.registered, List.mem_append, List.mem_singleton] at hn
        rw [list, same.phase, same.reaps]
        rcases hn with old | rfl
        · exact (f.listed n old).imp (fun ⟨e, he, eq⟩ => ⟨e, List.mem_append_left _ he, eq⟩) id
        · exact Or.inl ⟨entry, by simp, rfl⟩
      · rw [list, same.reaps, List.map_append, List.map_singleton, List.append_assoc]
        have shift : (s.listing.map WorkerEntry.id ++ ([entry.id] ++ s.reaps.map fun r => r.entry.id)).Perm
            (entry.id :: (s.listing.map WorkerEntry.id ++ s.reaps.map fun r => r.entry.id)) :=
          List.perm_middle
        exact shift.nodup_iff.mpr (List.nodup_cons.mpr ⟨fresh, f.once⟩)
      · rw [list, same.reaps] at hn
        rw [same.registered]
        simp only [List.map_append, List.map_singleton, List.mem_append, List.mem_singleton] at hn ⊢
        rcases hn with (hn | rfl) | hn
        · exact Or.inl (f.known n (List.mem_append_left _ hn))
        · exact Or.inr rfl
        · exact Or.inl (f.known n (List.mem_append_right _ hn))
    · refine ⟨fun n hn => ?_, ?_, fun n hn => ?_⟩
      · rw [same.registered, List.mem_append, List.mem_singleton] at hn
        rw [list, same.phase, same.reaps]
        rcases hn with old | rfl
        · exact f.listed n old
        · exact Or.inr (Or.inl consumed)
      · rw [list, same.reaps]
        exact f.once
      · rw [list, same.reaps] at hn
        rw [same.registered]
        exact List.mem_append_left _ (f.known n hn)
  | dropped before after entry consumed list list' same =>
    have sub : (s'.listing.map WorkerEntry.id).Sublist (s.listing.map WorkerEntry.id) := by
      rw [list, list']
      exact ((List.sublist_cons_self entry after).append_left before).map _
    refine ⟨fun n hn => ?_, ?_, fun n hn => ?_⟩
    · rw [same.registered] at hn
      rw [same.phase, same.reaps]
      rcases f.listed n hn with ⟨e, he, rfl⟩ | gone
      · rw [list, List.mem_append, List.mem_cons] at he
        rcases he with he | rfl | he
        · exact Or.inl ⟨e, by rw [list']; exact List.mem_append_left _ he, rfl⟩
        · exact Or.inr (Or.inl consumed)
        · exact Or.inl ⟨e, by rw [list']; exact List.mem_append_right _ he, rfl⟩
      · exact Or.inr gone
    · rw [same.reaps]
      exact f.once.sublist (sub.append_right _)
    · rw [same.registered]
      apply f.known n
      rw [same.reaps, List.mem_append] at hn
      exact List.mem_append.mpr (hn.imp (fun h => sub.subset h) id)
  | expired taken n pass list same =>
    have perm := extractIf_perm taken s.registry.epoch n s.listing
    have ids : (s'.listing.map WorkerEntry.id ++ s'.reaps.map fun r => r.entry.id).Perm
        (s.listing.map WorkerEntry.id ++ s.reaps.map fun r => r.entry.id) := by
      rw [list, same.reaps, List.map_append]
      refine List.perm_append_comm_assoc _ _ _ |>.trans ?_
      exact (perm.append_left _).trans List.perm_append_comm
    refine ⟨fun m hm => ?_, ids.nodup_iff.mpr f.once, fun m hm => ?_⟩
    · rw [same.registered] at hm
      rw [same.phase]
      have split : m ∈ s.listing.map WorkerEntry.id ++ s.reaps.map (fun r => r.entry.id) →
          (∃ e ∈ s'.listing, e.id = m) ∨ ∃ r ∈ s'.reaps, r.entry.id = m := by
        intro mem
        have := ids.mem_iff.mpr mem
        rw [List.mem_append, List.mem_map, List.mem_map] at this
        exact this
      rcases f.listed m hm with ⟨e, he, rfl⟩ | consumed | ⟨r, hr, rfl⟩
      · exact (split (List.mem_append_left _ (List.mem_map_of_mem he))).imp id Or.inr
      · exact Or.inr (Or.inl consumed)
      · exact (split (List.mem_append_right _ (List.mem_map_of_mem (f := fun r => r.entry.id) hr))).imp id Or.inr
    · rw [same.registered]
      exact f.known m (ids.mem_iff.mp hm)

/-! ## Stamps and reaps -/

/-- A stamp is the epoch of a sweep that found the entry unheld, a reap comes at least
the retention after it, and each leaves its notice. -/
structure Stamped (s : System) : Prop where
  stamped : ∀ e ∈ s.listing, ∀ n, e.settledEpoch = some n →
    ∃ v ∈ s.observed, v.entry.id = e.id ∧ v.epoch = n
  observed : ∀ v ∈ s.observed, isHeld v.taken v.entry = false ∧ v.epoch ≤ s.registry.epoch
  reaped : ∀ r ∈ s.reaps, isHeld r.taken r.entry = false ∧
    ∃ v ∈ s.observed, v.entry.id = r.entry.id ∧ v.epoch + r.retention ≤ r.epoch
  noticed : s.noticed = s.reaps.map Verdict.notice

theorem Stamped.step (t : s.Stamped) (step : Step s s') : s'.Stamped := by
  cases step.change with
  | none list same =>
    refine ⟨?_, fun v hv => ?_, ?_, ?_⟩
    · rw [list, same.observed]
      exact t.stamped
    · rw [same.observed] at hv
      exact ⟨(t.observed v hv).1, (t.observed v hv).2.trans same.epoch⟩
    · rw [same.reaps, same.observed]
      exact t.reaped
    · rw [same.noticed, same.reaps]
      exact t.noticed
  | advance id p next eq =>
    subst eq
    exact ⟨t.stamped, t.observed, t.reaped, t.noticed⟩
  | filed entry new unstamped list same =>
    refine ⟨fun e he n hn => ?_, fun v hv => ?_, ?_, ?_⟩
    · rw [same.observed]
      rcases list with list | ⟨list, _⟩
      · rw [list, List.mem_append, List.mem_singleton] at he
        rcases he with he | rfl
        · exact t.stamped e he n hn
        · simp [unstamped] at hn
      · exact t.stamped e (list ▸ he) n hn
    · rw [same.observed] at hv
      exact ⟨(t.observed v hv).1, (t.observed v hv).2.trans same.epoch⟩
    · rw [same.reaps, same.observed]
      exact t.reaped
    · rw [same.noticed, same.reaps]
      exact t.noticed
  | dropped before after entry consumed list list' same =>
    refine ⟨fun e he n hn => ?_, fun v hv => ?_, ?_, ?_⟩
    · rw [same.observed]
      apply t.stamped e _ n hn
      rw [list', List.mem_append] at he
      rw [list, List.mem_append, List.mem_cons]
      exact he.imp id Or.inr
    · rw [same.observed] at hv
      exact ⟨(t.observed v hv).1, (t.observed v hv).2.trans same.epoch⟩
    · rw [same.reaps, same.observed]
      exact t.reaped
    · rw [same.noticed, same.reaps]
      exact t.noticed
  | expired taken n pass list same =>
    refine ⟨fun e he m hm => ?_, fun v hv => ?_, fun r hr => ?_, ?_⟩
    · rw [same.observed]
      rw [list] at he
      rcases mem_extractIf he with old | ⟨e₀, mem, fate, rfl⟩
      · obtain ⟨v, hv, eq⟩ := t.stamped e old m hm
        exact ⟨v, List.mem_append_left _ hv, eq⟩
      · refine ⟨⟨e₀, s.registry.epoch, n, taken⟩, List.mem_append_right _ ?_, rfl, ?_⟩
        · exact List.mem_map.mpr ⟨e₀, List.mem_filter.mpr ⟨mem, by simpa using fate⟩, rfl⟩
        · simpa using hm
    · rw [same.observed, List.mem_append] at hv
      rcases hv with hv | hv
      · exact ⟨(t.observed v hv).1, (t.observed v hv).2.trans same.epoch⟩
      · have made := mem_judged hv
        rw [made.2.2.1, made.2.2.2.2]
        exact ⟨fate_unheld made.2.1 (by simp), same.epoch⟩
    · rw [same.reaps, List.mem_append] at hr
      rw [same.observed]
      rcases hr with hr | hr
      · obtain ⟨unheld, v, hv, eq⟩ := t.reaped r hr
        exact ⟨unheld, v, List.mem_append_left _ hv, eq⟩
      · have made := mem_judged hr
        refine ⟨?_, ?_⟩
        · rw [made.2.2.2.2]
          exact fate_unheld made.2.1 (by simp)
        · obtain ⟨stamp, found, old⟩ := fate_reaped made.2.1
          obtain ⟨v, hv, same_id, epoch⟩ := t.stamped r.entry made.1 stamp found
          have := (t.observed v hv).2
          refine ⟨v, List.mem_append_left _ hv, same_id, ?_⟩
          rw [made.2.2.1, made.2.2.2.1]
          omega
    · rw [same.noticed, same.reaps, List.map_append, t.noticed]

end System

/-! ## The registry admits and reaps by its rules -/

namespace Phase

/-- A later phase of the same handle, or the same one. -/
inductive Since : Phase → Phase → Prop
  | refl (p : Phase) : Since p p
  | next {p q r : Phase} : Since p q → Advance q r → Since p r

theorem Since.not_live {p q : Phase} (h : Since p q) (ended : p.isLive = false) : q.isLive = false := by
  induction h with
  | refl => exact ended
  | next before step ih =>
    cases step with
    | complete => simp [isLive] at ih
    | stop => simp [isLive] at ih
    | claim => rfl
    | drain => rfl

end Phase

namespace System

variable {s s' : System}

theorem phase_step (step : Step s s') (id : WorkerId) :
    s'.phase id = s.phase id ∨ Phase.Advance (s.phase id) (s'.phase id) := by
  cases step.change with
  | none list same => exact Or.inl (by rw [same.phase])
  | advance n p next eq =>
    subst eq
    by_cases here : id = n
    · subst here
      exact Or.inr (by simpa using next)
    · exact Or.inl (by simp [here])
  | filed entry new unstamped list same => exact Or.inl (by rw [same.phase])
  | dropped before after entry consumed list list' same => exact Or.inl (by rw [same.phase])
  | expired taken n pass list same => exact Or.inl (by rw [same.phase])

theorem live_step (step : Step s s') (id : WorkerId) (live : (s'.phase id).isLive = true) :
    (s.phase id).isLive = true := by
  rcases phase_step step id with same | next
  · rwa [same] at live
  · cases hs : s.phase id with
    | running => rfl
    | stopping => rfl
    | ready =>
      rw [hs] at next
      cases h : s'.phase id <;> rw [h] at next live <;> cases next
      simp [Phase.isLive] at live
    | consumed =>
      rw [hs] at next
      cases next

theorem consumed_step (step : Step s s') (id : WorkerId) (consumed : s.phase id = .consumed) :
    s'.phase id = .consumed := by
  rcases phase_step step id with same | next
  · rw [same, consumed]
  · rw [consumed] at next
    cases next

theorem liveCount_step (step : Step s s') (entries : List WorkerEntry) :
    s'.liveCount entries ≤ s.liveCount entries := by
  induction entries with
  | nil => exact Nat.le_refl _
  | cons e entries ih =>
    have head := live_step step e.id
    simp only [liveCount, List.filter_cons] at ih ⊢
    split
    · next live =>
        rw [if_pos (head live)]
        simpa using ih
    · split
      · exact Nat.le_succ_of_le ih
      · exact ih

theorem liveCount_concat (entries : List WorkerEntry) (e : WorkerEntry) :
    s.liveCount (entries ++ [e]) = s.liveCount entries + if (s.phase e.id).isLive then 1 else 0 := by
  unfold liveCount
  rw [List.filter_append, List.length_append]
  split
  · next live => simp [live]
  · next ended => simp [ended]

/-- The seats, and the count an admission is measured against. -/
structure Admits (s : System) : Prop where
  seats : s.registry.reserved = s.outstanding
  counted : ∀ kept todo live why, s.pass = some (.pruning kept todo live why) → s.liveCount kept ≤ live
  granted : ∀ g ∈ s.grants, g.live + g.outstanding < g.cap
  /-- A sweep samples the entries in order, each once. -/
  sampled : ∀ taken todo, s.pass = some (.sampling taken todo) →
    taken.map Prod.fst ++ todo.map WorkerEntry.id = s.registry.entries.map WorkerEntry.id
  since : ∀ taken todo, s.pass = some (.sampling taken todo) → ∀ t ∈ taken, Phase.Since t.2 (s.phase t.1)

theorem admits_initial (phase : WorkerId → Phase) : (initial phase).Admits :=
  ⟨rfl, by simp [initial], by simp [initial], by simp [initial], by simp [initial]⟩

theorem admits_begin (a : s.Admits) (entries : List WorkerEntry) (why : Why) :
    ({ s with pass := some (.pruning [] entries 0 why) } : System).Admits where
  seats := a.seats
  counted := by
    intro kept todo live w eq
    cases eq
    exact Nat.le_refl _
  granted := a.granted
  sampled := by simp
  since := by simp

theorem admits_free (seats : s.registry.reserved = s.outstanding) (free : s.pass = none)
    (granted : ∀ g ∈ s.grants, g.live + g.outstanding < g.cap) : s.Admits :=
  ⟨seats, by simp [free], granted, by simp [free], by simp [free]⟩

theorem admits_file {entry : WorkerEntry} (a : s.Admits) (free : s.pass = none) : (s.file entry).Admits := by
  unfold file
  split
  · exact a
  · split
    · exact admits_begin a _ _
    · exact admits_free a.seats free a.granted

theorem Admits.step (a : s.Admits) (step : Step s s') : s'.Admits := by
  have count := liveCount_step step
  cases step with
  | advance id p next =>
    refine ⟨a.seats, fun kept todo live why pass => ?_, a.granted, a.sampled, fun taken todo pass t ht => ?_⟩
    · exact Nat.le_trans (count kept) (a.counted kept todo live why pass)
    · have before := a.since taken todo pass t ht
      by_cases here : t.1 = id
      · simp only [here, if_true]
        rw [here] at before
        exact before.next next
      · simpa [here] using before
  | reserveUncapped free =>
    exact admits_free (by simp [take, a.seats]) free a.granted
  | reserve cap free => exact admits_begin a _ _
  | register entry free some new unstamped =>
    have back : ({ s.giveBack with registered := s.registered ++ [entry.id] } : System).Admits :=
      admits_free (by simp [giveBack, a.seats]) free a.granted
    exact admits_file back free
  | dropReservation free some => exact admits_free (by simp [giveBack, a.seats]) free a.granted
  | tickEpoch free => exact admits_free a.seats free a.granted
  | armRetention n free => exact admits_free a.seats free a.granted
  | takeReapNotices free => exact admits_free a.seats free a.granted
  | list free => exact admits_begin a _ _
  | sweepRetention free => exact admits_begin a _ _
  | prune kept todo entry live why pass =>
    have before := a.counted _ _ _ _ pass
    refine ⟨a.seats, fun kept' todo' live' why' eq => ?_, a.granted, by simp, by simp⟩
    cases eq
    show s.liveCount _ ≤ _
    split
    · omega
    · rw [liveCount_concat]
      omega
  | refused kept live cap pass full => exact admits_free a.seats rfl a.granted
  | granted kept live cap pass room =>
    have before := a.counted _ _ _ _ pass
    have seats := a.seats
    refine admits_free (by simp [take, release, pruned, seats]) rfl fun g hg => ?_
    rcases List.mem_append.mp hg with hg | hg
    · exact a.granted g hg
    · rw [List.mem_singleton] at hg
      subst hg
      show s.liveCount kept + s.outstanding < cap
      omega
  | pushed kept live entry pass => exact admits_free a.seats rfl a.granted
  | listed kept live pass => exact admits_free a.seats rfl a.granted
  | unarmed kept live pass bare => exact admits_free a.seats rfl a.granted
  | armed kept live n pass set =>
    refine ⟨a.seats, by simp, a.granted, fun taken todo eq => ?_, fun taken todo eq t ht => ?_⟩
    · cases eq
      rfl
    · cases eq
      simp at ht
  | sample taken entry todo pass =>
    have before := a.sampled _ _ pass
    refine ⟨a.seats, by simp, a.granted, fun taken' todo' eq => ?_, fun taken' todo' eq t ht => ?_⟩
    · cases eq
      rw [← before]
      simp
    · cases eq
      rcases List.mem_append.mp ht with ht | ht
      · exact a.since _ _ pass t ht
      · rw [List.mem_singleton] at ht
        subst ht
        exact .refl _
  | expired taken n pass set => exact admits_free a.seats rfl a.granted

/-- What a sweep's samples say when it judges: every entry was sampled, and a handle
found ended is ended still. -/
theorem Admits.judging (a : s.Admits) {taken : Samples} (pass : s.pass = some (.sampling taken [])) :
    taken.map Prod.fst = s.registry.entries.map WorkerEntry.id ∧
      ∀ t ∈ taken, t.2.isLive = false → (s.phase t.1).isLive = false := by
  refine ⟨by simpa using a.sampled taken [] pass, fun t ht ended => ?_⟩
  exact (a.since taken [] pass t ht).not_live ended

/-! ## A claimed worker -/

/-- Consumed before any sweep under way sampled it, and not reaped. -/
structure Claimed (s : System) (id : WorkerId) : Prop where
  consumed : s.phase id = .consumed
  unsampled : ∀ taken todo, s.pass = some (.sampling taken todo) → (id, Phase.ready) ∉ taken
  kept : ∀ r ∈ s.reaps, r.entry.id ≠ id

theorem Claimed.step {id : WorkerId} (c : s.Claimed id) (step : Step s s') : s'.Claimed id where
  consumed := consumed_step step id c.consumed
  unsampled := by
    intro taken todo pass mem
    cases step with
    | advance n p next => exact c.unsampled taken todo pass mem
    | armed kept live n was set =>
      cases pass
      simp at mem
    | sample before entry rest was =>
      cases pass
      rcases List.mem_append.mp mem with mem | mem
      · exact c.unsampled _ _ was mem
      · rw [List.mem_singleton, Prod.mk.injEq] at mem
        have := c.consumed
        rw [mem.1, ← mem.2] at this
        cases this
    | reserveUncapped free => simp [take, free] at pass
    | register entry free some new unstamped =>
      unfold file at pass
      split at pass
      · simp [giveBack, free] at pass
      · split at pass
        · simp at pass
        · simp [push, giveBack, free] at pass
    | dropReservation free some => simp [giveBack, free] at pass
    | tickEpoch free => simp [free] at pass
    | armRetention n free => simp [free] at pass
    | takeReapNotices free => simp [free] at pass
    | _ => simp [take, push, release] at pass
  kept := by
    intro r hr
    cases step.change with
    | none list same => exact c.kept r (same.reaps ▸ hr)
    | advance n p next eq =>
      subst eq
      exact c.kept r hr
    | filed entry new unstamped list same => exact c.kept r (same.reaps ▸ hr)
    | dropped before after entry consumed list list' same => exact c.kept r (same.reaps ▸ hr)
    | expired taken n pass list same =>
      rw [same.reaps, List.mem_append] at hr
      rcases hr with hr | hr
      · exact c.kept r hr
      · have made := mem_judged hr
        have unheld := fate_unheld made.2.1 (by simp)
        rintro rfl
        simp only [isHeld, Bool.or_eq_false_iff, Bool.not_eq_false', decide_eq_true_eq] at unheld
        exact c.unsampled _ _ pass unheld.1.1

theorem Claimed.run {id : WorkerId} (c : s.Claimed id) (run : Runs s s') : s'.Claimed id := by
  induction run with
  | refl => exact c
  | tail _ step ih => exact ih.step step

/-! ## The rules -/

theorem filed_initial (phase : WorkerId → Phase) : (initial phase).Filed :=
  ⟨by simp [initial], by simp [initial, listing], by simp [initial, listing]⟩

theorem stamped_initial (phase : WorkerId → Phase) : (initial phase).Stamped :=
  ⟨by simp [initial, listing], by simp [initial], by simp [initial], rfl⟩

theorem keeps_run {phase : WorkerId → Phase} (run : Runs (initial phase) s) :
    s.Admits ∧ s.Filed ∧ s.Stamped := by
  induction run with
  | refl => exact ⟨admits_initial phase, filed_initial phase, stamped_initial phase⟩
  | tail _ step ih => exact ⟨ih.1.step step, ih.2.1.step step, ih.2.2.step step⟩

/-- A sweep found it ready, no gather's, and no child of a worker it found live. -/
structure Verdict.Unanswered (v : Verdict) : Prop where
  ready : (v.entry.id, Phase.ready) ∈ v.taken
  gather : v.entry.owner ≠ .gather
  parent : ∀ p, v.entry.owner = .worker p → ∀ q, (p, q) ∈ v.taken → q.isLive = false

theorem unanswered {v : Verdict} (h : isHeld v.taken v.entry = false) : Verdict.Unanswered v := by
  simp only [isHeld, Bool.or_eq_false_iff, Bool.not_eq_false', decide_eq_true_eq, decide_eq_false_iff_not] at h
  refine ⟨h.1.1, h.1.2, fun p owner q mem => ?_⟩
  have none := h.2
  rw [owner] at none
  simp only [List.any_eq_false, Bool.and_eq_true, decide_eq_true_eq, not_and] at none
  simpa using none (p, q) mem rfl

/-- A reaped worker found ready will not run again. -/
theorem reaped_not_live {phase : WorkerId → Phase} (run : Runs (initial phase) s) :
    ∀ r ∈ s.reaps, (s.phase r.entry.id).isLive = false := by
  induction run with
  | refl => simp [initial]
  | tail run step ih =>
    intro r hr
    have kept : r ∈ _ → _ := fun old => Bool.eq_false_iff.mpr fun live =>
      Bool.eq_false_iff.mp (ih r old) (live_step step r.entry.id live)
    cases step.change with
    | none list same => exact kept (same.reaps ▸ hr)
    | advance id p next eq => exact kept (by simpa [eq] using hr)
    | filed entry new unstamped list same => exact kept (same.reaps ▸ hr)
    | dropped before after entry consumed list list' same => exact kept (same.reaps ▸ hr)
    | expired taken n pass list same =>
      rw [same.reaps, List.mem_append] at hr
      rcases hr with hr | hr
      · exact kept hr
      · have made := mem_judged hr
        have found := unanswered (v := r) (by rw [made.2.2.2.2]; exact fate_unheld made.2.1 (by simp))
        have ended := (keeps_run run).1.judging pass |>.2 _ (made.2.2.2.2 ▸ found.ready) rfl
        exact Bool.eq_false_iff.mpr fun live =>
          Bool.eq_false_iff.mp ended (live_step step r.entry.id live)

/-! ## Sweeps that nothing lands in -/

/-- A step at which no claim lands on a worker the sweep under way has found ready, and
which files no child before its parent. -/
structure Undisturbed (s s' : System) : Prop where
  step : Step s s'
  unclaimed : ∀ taken todo, s.pass = some (.sampling taken todo) → ∀ id, (id, Phase.ready) ∈ taken →
    s'.phase id = s.phase id
  parented : ∀ e ∈ s'.listing, e.id ∉ s.registered → ∀ p, e.owner = .worker p → p ∈ s.registered

abbrev UndisturbedRuns : System → System → Prop := Relation.ReflTransGen Undisturbed

theorem UndisturbedRuns.runs (run : UndisturbedRuns s s') : Runs s s' :=
  Relation.ReflTransGen.mono (fun _ _ u => u.step) _ _ run

/-- What a sweep found ready is ready, and a child listed was filed after its parent. -/
structure Steady (s : System) : Prop where
  ready : ∀ taken todo, s.pass = some (.sampling taken todo) → ∀ id, (id, Phase.ready) ∈ taken →
    s.phase id = .ready
  parents : ∀ e ∈ s.listing, ∀ p, e.owner = .worker p → p ∈ s.registered

theorem Steady.step (t : s.Steady) (u : Undisturbed s s') : s'.Steady where
  ready := by
    intro taken todo pass id mem
    cases u.step with
    | advance n p next => exact (u.unclaimed taken todo pass id mem).trans (t.ready taken todo pass id mem)
    | armed kept live n was set =>
      cases pass
      simp at mem
    | sample before entry rest was =>
      cases pass
      rcases List.mem_append.mp mem with mem | mem
      · exact t.ready _ _ was id mem
      · rw [List.mem_singleton, Prod.mk.injEq] at mem
        rw [mem.1]
        exact mem.2.symm
    | reserveUncapped free => simp [take, free] at pass
    | register entry free some new unstamped =>
      unfold file at pass
      split at pass
      · simp [giveBack, free] at pass
      · split at pass
        · simp at pass
        · simp [push, giveBack, free] at pass
    | dropReservation free some => simp [giveBack, free] at pass
    | tickEpoch free => simp [free] at pass
    | armRetention n free => simp [free] at pass
    | takeReapNotices free => simp [free] at pass
    | _ => simp [take, push, release] at pass
  parents := by
    intro e he p owner
    have old (mem : e ∈ s.listing) : p ∈ s.registered := t.parents e mem p owner
    cases u.step.change with
    | none list same => exact same.registered ▸ old (list ▸ he)
    | advance id p next eq =>
      subst eq
      exact old he
    | filed entry new unstamped list same =>
      rw [same.registered, List.mem_append]
      by_cases fresh : e.id ∈ s.registered
      · rcases list with list | ⟨list, _⟩
        · rw [list, List.mem_append, List.mem_singleton] at he
          rcases he with he | rfl
          · exact Or.inl (old he)
          · exact absurd fresh new
        · exact Or.inl (old (list ▸ he))
      · exact Or.inl (u.parented e he fresh p owner)
    | dropped before after entry consumed list list' same =>
      rw [same.registered]
      apply old
      rw [list', List.mem_append] at he
      rw [list, List.mem_append, List.mem_cons]
      exact he.imp id Or.inr
    | expired taken n pass list same =>
      rw [same.registered]
      rw [list] at he
      rcases mem_extractIf he with mem | ⟨e₀, mem, _, rfl⟩
      · exact old mem
      · exact t.parents e₀ mem p owner

theorem steady_run {phase : WorkerId → Phase} (run : UndisturbedRuns (initial phase) s) : s.Steady := by
  induction run with
  | refl => exact ⟨by simp [initial], by simp [initial, listing]⟩
  | tail _ u ih => exact ih.step u

/-- Ready, no gather's, and no child of a live worker. -/
structure Verdict.Unowned (s : System) (v : Verdict) : Prop where
  ready : s.phase v.entry.id = .ready
  gather : v.entry.owner ≠ .gather
  parent : ∀ p, v.entry.owner = .worker p → (s.phase p).isLive = false

/-- A sweep's verdict holds of the moment it is made. -/
theorem unowned {phase : WorkerId → Phase} (run : UndisturbedRuns (initial phase) s) {taken : Samples} {n : ℕ}
    (pass : s.pass = some (.sampling taken [])) {which : Fate} (judges : which ≠ .kept) {v : Verdict}
    (hv : v ∈ judged which taken s.registry.epoch n s.listing) : Verdict.Unowned s v := by
  have steady := steady_run run
  obtain ⟨admits, filed, -⟩ := keeps_run (UndisturbedRuns.runs run)
  have made := mem_judged hv
  have found := unanswered (v := v) (by rw [made.2.2.2.2]; exact fate_unheld made.2.1 judges)
  refine ⟨steady.ready taken [] pass _ (made.2.2.2.2 ▸ found.ready), found.gather, fun p owner => ?_⟩
  rcases filed.listed p (steady.parents _ made.1 p owner) with ⟨e, mem, rfl⟩ | consumed | ⟨r, hr, rfl⟩
  · have listed : e ∈ s.registry.entries := by simpa [listing, pass] using mem
    obtain ⟨all, ended⟩ := admits.judging pass
    have sampled : e.id ∈ taken.map Prod.fst := all ▸ List.mem_map_of_mem listed
    obtain ⟨⟨id, q⟩, ht, rfl⟩ := List.mem_map.mp sampled
    exact ended _ ht (found.parent _ owner q (made.2.2.2.2 ▸ ht))
  · rw [consumed]
    rfl
  · exact reaped_not_live (UndisturbedRuns.runs run) r hr

/-- In every run of undisturbed steps: a capped seat is granted only below the cap; the
count of seats is the reservations held; a worker filed is listed until consumed or
reaped; what a sweep stamps or reaps is ready, no gather's and no child of a live worker,
and was stamped at least the retention of epochs before it is reaped; each reap leaves
one notice; and a worker claimed leaves none. -/
theorem registry_rules (phase : WorkerId → Phase) (s : System) (run : UndisturbedRuns (initial phase) s) :
    s.registry.reserved = s.outstanding ∧
    (∀ g ∈ s.grants, g.live + g.outstanding < g.cap) ∧
    (∀ id ∈ s.registered, (∃ e ∈ s.listing, e.id = id) ∨ s.phase id = .consumed ∨
      ∃ r ∈ s.reaps, r.entry.id = id) ∧
    (∀ s', Undisturbed s s' → (∀ v ∈ s'.observed, v ∈ s.observed ∨ Verdict.Unowned s v) ∧
      ∀ r ∈ s'.reaps, r ∈ s.reaps ∨ Verdict.Unowned s r) ∧
    (∀ r ∈ s.reaps, ∃ v ∈ s.observed, v.entry.id = r.entry.id ∧ v.epoch + r.retention ≤ r.epoch) ∧
    s.noticed = s.reaps.map Verdict.notice ∧ (s.reaps.map fun r => r.entry.id).Nodup ∧
    (∀ id, s.phase id = .consumed → (∀ r ∈ s.reaps, r.entry.id ≠ id) →
      ∀ s', UndisturbedRuns s s' → ∀ n ∈ s'.noticed, n.id ≠ id) := by
  obtain ⟨admits, filed, stamped⟩ := keeps_run (UndisturbedRuns.runs run)
  refine ⟨admits.seats, admits.granted, filed.listed, fun s' u => ?_, fun r hr => (stamped.reaped r hr).2,
    stamped.noticed, (List.nodup_append.mp filed.once).2.1, fun id consumed spared s' more n hn => ?_⟩
  · cases u.step.change with
    | none list same => exact ⟨fun v hv => Or.inl (same.observed ▸ hv), fun r hr => Or.inl (same.reaps ▸ hr)⟩
    | advance id p next eq =>
      subst eq
      exact ⟨fun v hv => Or.inl hv, fun r hr => Or.inl hr⟩
    | filed entry new unstamped list same =>
      exact ⟨fun v hv => Or.inl (same.observed ▸ hv), fun r hr => Or.inl (same.reaps ▸ hr)⟩
    | dropped before after entry consumed list list' same =>
      exact ⟨fun v hv => Or.inl (same.observed ▸ hv), fun r hr => Or.inl (same.reaps ▸ hr)⟩
    | expired taken n pass list same =>
      rw [same.observed, same.reaps]
      exact ⟨fun v hv => (List.mem_append.mp hv).imp_right (unowned run pass (by simp)),
        fun r hr => (List.mem_append.mp hr).imp_right (unowned run pass (by simp))⟩
  · have claimed : s.Claimed id := by
      refine ⟨consumed, fun taken todo pass mem => ?_, spared⟩
      have ready := (steady_run run).ready taken todo pass id mem
      rw [consumed] at ready
      cases ready
    have later := keeps_run ((UndisturbedRuns.runs run).trans (UndisturbedRuns.runs more))
    rw [later.2.2.noticed] at hn
    obtain ⟨r, hr, rfl⟩ := List.mem_map.mp hn
    exact (claimed.run (UndisturbedRuns.runs more)).kept r hr

/-- A worker claimed after a sweep sampled it and before the sweep judged is reaped all
the same, and leaves a notice. -/
theorem claimed_worker_noticed : ∃ s s' : System, Runs (initial fun _ => .running) s ∧
    s.phase 0 = .consumed ∧ s.reaps = [] ∧ Runs s s' ∧ ∃ n ∈ s'.noticed, n.id = 0 := by
  let entry : WorkerEntry := ⟨0, .session, "job", none⟩
  let settled : WorkerEntry := ⟨0, .session, "job", some 0⟩
  refine ⟨_, _, (((((((((((Relation.ReflTransGen.refl.tail (.armRetention _ 0 rfl)).tail
    (.reserveUncapped _ rfl)).tail (.register _ entry rfl (by decide) (by decide) rfl)).tail
    (.advance _ 0 .ready .complete)).tail (.sweepRetention _ rfl)).tail
    (.prune _ [] [] entry 0 .sweep rfl)).tail (.armed _ [entry] 0 0 rfl rfl)).tail
    (.sample _ [] entry [] rfl)).tail (.expired _ [(0, .ready)] 0 rfl rfl)).tail
    (.sweepRetention _ rfl)).tail (.prune _ [] [] settled 0 .sweep rfl)).tail
    (.armed _ [settled] 0 0 rfl rfl) |>.tail (.sample _ [] settled [] rfl) |>.tail
    (.advance _ 0 .consumed .claim), rfl, rfl,
    Relation.ReflTransGen.refl.tail (.expired _ [(0, .ready)] 0 rfl rfl), ⟨0, "job", .retention⟩, ?_, rfl⟩
  exact List.mem_singleton.mpr rfl

/-- Among the session's own workers a step is undisturbed unless it is a claim. -/
theorem Undisturbed.alone (step : Step s s') (unclaimed : s'.phase = s.phase ∨ s.pass = none)
    (owned : ∀ e ∈ s'.listing, e.owner = .session) : Undisturbed s s' where
  step := step
  unclaimed := by
    intro taken todo pass id mem
    rcases unclaimed with same | free
    · rw [same]
    · simp [free] at pass
  parented := by
    intro e he new p owner
    rw [owned e he] at owner
    cases owner

theorem registry_rules_reaped : ∃ s : System, UndisturbedRuns (initial fun _ => .running) s ∧
    s.noticed = [⟨0, "job", .retention⟩] ∧ ∃ r ∈ s.reaps, ∃ v ∈ s.observed, v.entry.id = 0 ∧
      v.epoch + r.retention ≤ r.epoch := by
  let entry : WorkerEntry := ⟨0, .session, "job", none⟩
  let settled : WorkerEntry := ⟨0, .session, "job", some 0⟩
  have run : ∃ s : System, UndisturbedRuns (initial fun _ => .running) s ∧
      s.reaps = [⟨settled, 1, 1, [(0, .ready)]⟩] :=
    ⟨_, ((((((((((((((Relation.ReflTransGen.refl.tail
      (.alone (.armRetention _ 1 rfl) (Or.inl rfl) (by decide))).tail
      (.alone (.reserveUncapped _ rfl) (Or.inl rfl) (by decide))).tail
      (.alone (.register _ entry rfl (by decide) (by decide) rfl) (Or.inl rfl) (by decide))).tail
      (.alone (.advance _ 0 .ready .complete) (Or.inr rfl) (by decide))).tail
      (.alone (.sweepRetention _ rfl) (Or.inl rfl) (by decide))).tail
      (.alone (.prune _ [] [] entry 0 .sweep rfl) (Or.inl rfl) (by decide))).tail
      (.alone (.armed _ [entry] 0 1 rfl rfl) (Or.inl rfl) (by decide))).tail
      (.alone (.sample _ [] entry [] rfl) (Or.inl rfl) (by decide))).tail
      (.alone (.expired _ [(0, .ready)] 1 rfl rfl) (Or.inl rfl) (by decide))).tail
      (.alone (.tickEpoch _ rfl) (Or.inl rfl) (by decide))).tail
      (.alone (.sweepRetention _ rfl) (Or.inl rfl) (by decide))).tail
      (.alone (.prune _ [] [] settled 0 .sweep rfl) (Or.inl rfl) (by decide))).tail
      (.alone (.armed _ [settled] 0 1 rfl rfl) (Or.inl rfl) (by decide))).tail
      (.alone (.sample _ [] settled [] rfl) (Or.inl rfl) (by decide))).tail
      (.alone (.expired _ [(0, .ready)] 1 rfl rfl) (Or.inl rfl) (by decide)), rfl⟩
  obtain ⟨s, run, reaps⟩ := run
  obtain ⟨-, -, -, -, old, noticed, -⟩ := registry_rules _ s run
  let reap : Verdict := ⟨settled, 1, 1, [(0, .ready)]⟩
  have mem : reap ∈ s.reaps := reaps ▸ List.mem_singleton_self reap
  exact ⟨s, run, by rw [noticed, reaps]; rfl, reap, mem, old reap mem⟩

end System

end Ral.Worker
