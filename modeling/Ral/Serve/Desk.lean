import Mathlib.Data.List.Nodup
import Ral.Serve.Books

/-! # The enquiry desk

An enquiry's sender is in the table, in the reader's hands, or spent; there is no other.
So no park is orphaned, none outlives its enquiry, and an answer reaches its own enquiry or
nobody.
-/

namespace Ral.Serve

variable {Id V R : Type}

def Reader.Carries (r : Reader Id V) (rx : Chan) : Prop := ∃ eid a, r = .filling eid rx a

/-- Where the one sender of a registered enquiry is. -/
inductive Asking.Stands (q : Asking V) (parks : Parks) (reader : Reader Id V) : Prop
  | parked : parks.parked = [(q.eid, q.rx)] → q.slot = none → ¬ reader.Carries q.rx → Stands q parks reader
  | carried (a : Except String V) : parks.parked = [] → q.slot = none → reader = .filling q.eid q.rx a →
      Stands q parks reader
  | landed (a : Except String V) : parks.parked = [] → q.slot = some a → ¬ reader.Carries q.rx →
      Stands q parks reader

def Worker.asks : Worker Id V R → Option (Asking V)
  | .asking _ q => some q
  | _ => none

structure State.Desk (s : State Id V R) : Prop where
  empty : s.worker.asks = none → s.parks.parked = []
  minted : ∀ q, s.worker.asks = some q → q.phase = .minted →
    s.parks.parked = [] ∧ q.slot = none ∧ ¬ s.reader.Carries q.rx
  stands : ∀ q, s.worker.asks = some q → q.phase ≠ .minted → q.Stands s.parks s.reader
  fresh : ∀ q, s.worker.asks = some q → q.eid < s.parks.next ∧ q.rx < s.chans ∧ q.eid ∉ s.outcomes.map Prod.fst
  made : ∀ eid tx a, s.reader = .filling eid tx a → tx < s.chans
  carried : ∀ eid tx a, s.reader = .filling eid tx a → .answer eid a ∈ s.sent
  landed : ∀ q a, s.worker.asks = some q → q.slot = some a → .answer q.eid a ∈ s.sent
  answered : ∀ eid a, (eid, .answered a) ∈ s.outcomes → .answer eid a ∈ s.sent
  issued : ∀ o ∈ s.outcomes, o.1 < s.parks.next
  once : (s.outcomes.map Prod.fst).Nodup

theorem desk_start : (State.start : State Id V R).Desk where
  empty := fun _ => rfl
  minted := fun _ h => by cases h
  stands := fun _ h => by cases h
  fresh := fun _ h => by cases h
  made := fun _ _ _ h => by cases h
  carried := fun _ _ _ h => by cases h
  landed := fun _ _ h => by cases h
  answered := fun _ _ h => by cases h
  issued := fun _ h => by cases h
  once := List.nodup_nil

namespace State.Desk

variable {s s' : State Id V R}

/-- Nothing the desk reads has changed, whatever more was sent. -/
theorem keep (h : s.Desk) (hparks : s'.parks = s.parks) (hchans : s'.chans = s.chans)
    (houtcomes : s'.outcomes = s.outcomes) (hsent : s.sent ⊆ s'.sent)
    (hworker : s'.worker.asks = s.worker.asks)
    (hreader : ∀ eid tx a, s'.reader = .filling eid tx a ↔ s.reader = .filling eid tx a) : s'.Desk := by
  have hcarries : ∀ rx, s'.reader.Carries rx ↔ s.reader.Carries rx :=
    fun rx => exists_congr fun eid => exists_congr fun a => hreader eid rx a
  refine ⟨?_, fun q hq hphase => ?_, fun q hq hphase => ?_, fun q hq => ?_, fun eid tx a hr => ?_,
    fun eid tx a hr => ?_, fun q a hq hslot => ?_, fun eid a ho => ?_, ?_, ?_⟩
  · rw [hworker, hparks]
    exact h.empty
  · rw [hparks, hcarries]
    exact h.minted q (hworker ▸ hq) hphase
  · rw [hparks]
    cases h.stands q (hworker ▸ hq) hphase with
    | parked hp hs hc => exact .parked hp hs (by rwa [hcarries])
    | carried a hp hs hr => exact .carried a hp hs ((hreader _ _ _).mpr hr)
    | landed a hp hs hc => exact .landed a hp hs (by rwa [hcarries])
  · rw [hparks, hchans, houtcomes]
    exact h.fresh q (hworker ▸ hq)
  · rw [hchans]
    exact h.made eid tx a ((hreader _ _ _).mp hr)
  · exact hsent (h.carried eid tx a ((hreader _ _ _).mp hr))
  · exact hsent (h.landed q a (hworker ▸ hq) hslot)
  · exact hsent (h.answered eid a (houtcomes ▸ ho))
  · rw [houtcomes, hparks]
    exact h.issued
  · rw [houtcomes]
    exact h.once

theorem phase (h : s.Desk) {c : Call Id} {q : Asking V} {phase : Phase} (hq : s.worker = .asking c q)
    (hfrom : q.phase ≠ .minted) (hto : phase ≠ .minted) : (s.inPhase c q phase).Desk := by
  have hasks : s.worker.asks = some q := by rw [hq]; rfl
  refine { h with empty := ?_, minted := ?_, stands := ?_, fresh := ?_, landed := ?_ }
  · intro hnone
    cases hnone
  · rintro q' ⟨⟩ hmint
    exact absurd hmint hto
  · rintro q' ⟨⟩ -
    cases h.stands q hasks hfrom with
    | parked hp hs hc => exact .parked hp hs hc
    | carried a hp hs hr => exact .carried a hp hs hr
    | landed a hp hs hc => exact .landed a hp hs hc
  · rintro q' ⟨⟩
    exact h.fresh q hasks
  · rintro q' a ⟨⟩ hslot
    exact h.landed q a hasks hslot

/-- An enquiry comes back, and its park is not there. -/
theorem resume (h : s.Desk) {c : Call Id} {q : Asking V} {outcome : Outcome V} {parks : Parks}
    (hq : s.worker.asks = some q) (hparks : parks.parked = []) (hnext : parks.next = s.parks.next)
    (houtcome : ∀ a, outcome = .answered a → .answer q.eid a ∈ s.sent) :
    ({ s with parks }.resume c q.eid outcome : State Id V R).Desk where
  empty := fun _ => hparks
  minted := fun _ hnone => by cases hnone
  stands := fun _ hnone => by cases hnone
  fresh := fun _ hnone => by cases hnone
  made := h.made
  carried := h.carried
  landed := fun _ _ hnone => by cases hnone
  answered := fun eid a ho => by
    rcases List.mem_append.mp ho with ho | ho
    · exact h.answered eid a ho
    · rw [List.mem_singleton, Prod.mk.injEq] at ho
      rw [ho.1]
      exact houtcome a ho.2.symm
  issued := fun o ho => by
    show o.1 < parks.next
    rw [hnext]
    rcases List.mem_append.mp ho with ho | ho
    · exact h.issued o ho
    · rw [List.mem_singleton.mp ho]
      exact (h.fresh q hq).1
  once := by
    show ((s.outcomes ++ [(q.eid, outcome)]).map Prod.fst).Nodup
    rw [List.map_append, List.nodup_append]
    refine ⟨h.once, List.nodup_singleton _, fun a ha b hb heq => ?_⟩
    have hlast : b = q.eid := List.mem_singleton.mp hb
    rw [heq, hlast] at ha
    exact (h.fresh q hq).2.2 ha

theorem removed (h : s.Desk) {q : Asking V} (hq : s.worker.asks = some q) :
    (s.parks.remove q.eid).parked = [] := by
  have hparked : s.parks.parked = [] ∨ s.parks.parked = [(q.eid, q.rx)] := by
    by_cases hphase : q.phase = .minted
    · exact Or.inl (h.minted q hq hphase).1
    · cases h.stands q hq hphase with
      | parked hp => exact Or.inr hp
      | carried a hp => exact Or.inl hp
      | landed a hp => exact Or.inl hp
  rcases hparked with hp | hp <;> simp [Parks.remove, hp]

/-- The table holds the one enquiry under way, or nothing. -/
theorem find (h : s.Desk) {eid : EnquiryId} {tx : Chan} (hfind : s.parks.find eid = some tx) :
    ∃ q, s.worker.asks = some q ∧ q.phase ≠ .minted ∧ eid = q.eid ∧ tx = q.rx ∧
      s.parks.parked = [(q.eid, q.rx)] ∧ q.slot = none := by
  unfold Parks.find at hfind
  cases hq : s.worker.asks with
  | none =>
    rw [h.empty hq] at hfind
    cases hfind
  | some q =>
    by_cases hphase : q.phase = .minted
    · rw [(h.minted q hq hphase).1] at hfind
      cases hfind
    · cases h.stands q hq hphase with
      | carried a hp => rw [hp] at hfind; cases hfind
      | landed a hp => rw [hp] at hfind; cases hfind
      | parked hp hs hc =>
        rw [hp, List.lookup_cons] at hfind
        split at hfind
        · next heq =>
            cases hfind
            exact ⟨q, rfl, hphase, by simpa using heq, rfl, hp, hs⟩
        · cases hfind

theorem sender_lives (h : s.Desk) {q : Asking V} (hq : s.worker.asks = some q) (hphase : q.phase ≠ .minted)
    (hslot : q.slot = none) : s.senderLives q.eid q.rx = true := by
  cases h.stands q hq hphase with
  | parked hp => simp [State.senderLives, Parks.find, hp]
  | carried a hp hs hr => simp [State.senderLives, hr]
  | landed a hp hs => simp [hslot] at hs

theorem fill (h : s.Desk) {eid : EnquiryId} {a : Except String V}
    (hframe : s.sent[s.taken]? = some (.answer eid a)) : (s.fill eid a).Desk := by
  unfold State.fill
  split
  · next tx hfind =>
      obtain ⟨q, hq, hphase, rfl, rfl, hparked, hslot⟩ := h.find hfind
      have hgone := h.removed hq
      have hmem : .answer q.eid a ∈ s.sent := List.mem_of_getElem? hframe
      refine { h with empty := ?_, minted := ?_, stands := ?_, made := ?_, carried := ?_ }
      · exact fun _ => hgone
      · intro q' hq' hmint
        cases hq.symm.trans hq'
        exact absurd hmint hphase
      · intro q' hq' _
        cases hq.symm.trans hq'
        exact .carried a hgone hslot rfl
      · rintro e t b ⟨⟩
        exact (h.fresh q hq).2.1
      · rintro e t b ⟨⟩
        exact hmem
  · exact h.keep rfl rfl rfl (List.Subset.refl _) rfl fun _ _ _ => Iff.rfl

theorem deliver (h : s.Desk) {eid : EnquiryId} {tx : Chan} {a : Except String V}
    (hfill : s.reader = .filling eid tx a) : (s.deliver tx a).Desk := by
  have hcarries : s.reader.Carries tx := ⟨eid, a, hfill⟩
  -- The reader's hands are empty after it, and the rest is as it was.
  have dropped : (∀ q, s.worker.asks = some q → q.rx ≠ tx) → ({ s with reader := .idle } : State Id V R).Desk := by
    intro hother
    have hnone : ∀ rx, ¬ (Reader.idle : Reader Id V).Carries rx := fun rx ⟨e, b, hr⟩ => by cases hr
    refine { h with
      minted := fun q hq hphase => ?_, stands := fun q hq hphase => ?_
      made := fun _ _ _ hr => by cases hr
      carried := fun _ _ _ hr => by cases hr }
    · obtain ⟨hp, hs, -⟩ := h.minted q hq hphase
      exact ⟨hp, hs, hnone q.rx⟩
    · cases h.stands q hq hphase with
      | parked hp hs hc => exact .parked hp hs (hnone q.rx)
      | landed b hp hs hc => exact .landed b hp hs (hnone q.rx)
      | carried b hp hs hr =>
        rw [hfill] at hr
        cases hr
        exact absurd rfl (hother q hq)
  unfold State.deliver
  split
  · next c q hw =>
      have hq : s.worker.asks = some q := by rw [hw]; rfl
      split
      · next hrx =>
          have hphase : q.phase ≠ .minted := by
            intro hmint
            exact (h.minted q hq hmint).2.2 (hrx ▸ hcarries)
          cases h.stands q hq hphase with
          | parked hp hs hc => exact absurd (hrx ▸ hcarries) hc
          | landed b hp hs hc => exact absurd (hrx ▸ hcarries) hc
          | carried b hp hs hr =>
            rw [hfill] at hr
            cases hr
            have hmem := h.carried q.eid q.rx a hfill
            refine { h with
              empty := fun hnone => ?_, minted := ?_, stands := ?_, fresh := ?_, landed := ?_
              made := fun _ _ _ hr => by cases hr
              carried := fun _ _ _ hr => by cases hr }
            · cases hnone
            · rintro q' ⟨⟩ hmint
              exact absurd hmint hphase
            · rintro q' ⟨⟩ -
              exact .landed a hp rfl fun ⟨e, b, hr⟩ => by cases hr
            · rintro q' ⟨⟩
              exact h.fresh q hq
            · rintro q' b ⟨⟩ hslot
              cases hslot
              exact hmem
      · next hrx =>
          apply dropped
          intro q' hq'
          cases hq.symm.trans hq'
          exact hrx
  · next hnot =>
      apply dropped
      intro q hq
      cases hw : s.worker with
      | asking c q' => exact absurd hw (hnot c q')
      | _ => rw [hw] at hq; cases hq

theorem raise (h : s.Desk) {c : Call Id} (hrun : s.worker = .running c) (req : V) :
    ({ s with
      worker := .asking c ⟨s.parks.next, req, s.chans, .minted, none⟩
      parks := { s.parks with next := s.parks.next + 1 }, chans := s.chans + 1 } : State Id V R).Desk := by
  have hparked : s.parks.parked = [] := h.empty (by rw [hrun]; rfl)
  refine { h with
    empty := fun _ => hparked, minted := ?_, stands := ?_, fresh := ?_, made := ?_, landed := ?_, issued := ?_ }
  · rintro q ⟨⟩ -
    refine ⟨hparked, rfl, ?_⟩
    rintro ⟨eid, a, hr⟩
    exact absurd (h.made eid s.chans a hr) (Nat.lt_irrefl _)
  · rintro q ⟨⟩ hphase
    exact absurd rfl hphase
  · rintro q ⟨⟩
    refine ⟨Nat.lt_succ_self _, Nat.lt_succ_self _, ?_⟩
    rw [List.mem_map]
    rintro ⟨o, ho, heq⟩
    have hlt := h.issued o ho
    rw [heq] at hlt
    exact absurd hlt (Nat.lt_irrefl _)
  · exact fun eid tx a hr => Nat.lt_succ_of_lt (h.made eid tx a hr)
  · rintro q a ⟨⟩ hslot
    cases hslot
  · exact fun o ho => Nat.lt_succ_of_lt (h.issued o ho)

theorem register (h : s.Desk) {c : Call Id} {q : Asking V} (hask : s.worker = .asking c q)
    (hphase : q.phase = .minted) :
    ({ s.inPhase c q .registered with parks := s.parks.insert q.eid q.rx } : State Id V R).Desk := by
  have hq : s.worker.asks = some q := by rw [hask]; rfl
  obtain ⟨hparked, hslot, hcarries⟩ := h.minted q hq hphase
  have hinsert : (s.parks.insert q.eid q.rx).parked = [(q.eid, q.rx)] := by simp [Parks.insert, hparked]
  refine { h with empty := ?_, minted := ?_, stands := ?_, fresh := ?_, landed := ?_ }
  · intro hnone
    cases hnone
  · rintro q' ⟨⟩ hmint
    cases hmint
  · rintro q' ⟨⟩ -
    exact .parked hinsert hslot hcarries
  · rintro q' ⟨⟩
    exact h.fresh q hq
  · rintro q' a ⟨⟩ hsome
    exact h.landed q a hq hsome

end State.Desk

variable [Fuse Id V R]

theorem Step.desk {s s' : State Id V R} (hstep : Step s s') (h : s.Desk) : s'.Desk := by
  cases hstep with
  | send f => exact h.keep rfl rfl rfl (List.subset_append_left _ _) rfl fun _ _ _ => Iff.rfl
  | surface | spawn | childSurface | childSpawn | childEnd | control =>
    exact h.keep rfl rfl rfl (List.Subset.refl _) rfl fun _ _ _ => Iff.rfl
  | claim c hr | turn c hr | refuse c _ hr | hand c hr =>
    exact h.keep rfl rfl rfl (List.Subset.refl _) rfl fun _ _ _ => by simp [hr]
  | fill eid a hidle hframe => exact h.fill hframe
  | deliver eid tx a hfill => exact h.deliver hfill
  | receive c _ hw | returned c _ hw | read c _ hw | panic c hw | drop c _ hw | report c _ _ hw =>
    exact h.keep rfl rfl rfl (List.Subset.refl _) (by rw [hw]; rfl) fun _ _ _ => Iff.rfl
  | raise c req hrun => exact h.raise hrun req
  | register c q hask hphase => exact h.register hask hphase
  | ask c q breaks hask hphase =>
    have hfrom : q.phase ≠ .minted := by simp [hphase]
    have hline : ∀ line, ({ s with line } : State Id V R).Desk := fun line =>
      h.keep rfl rfl rfl (List.Subset.refl _) rfl fun _ _ _ => Iff.rfl
    unfold State.ask
    split
    · exact (hline _).phase hask hfrom (by simp)
    · exact (hline _).phase hask hfrom (by simp)
  | received c q a hask hphase hslot =>
    have hq : s.worker.asks = some q := by rw [hask]; rfl
    have hfrom : q.phase ≠ .minted := by rcases hphase with hp | hp <;> simp [hp]
    refine @State.Desk.resume _ _ _ s h c q _ s.parks hq ?_ rfl ?_
    · cases h.stands q hq hfrom with
      | parked hp hs => simp [hslot] at hs
      | carried b hp hs => exact hp
      | landed b hp => exact hp
    · rintro b ⟨⟩
      exact h.landed q a hq hslot
  | orphaned c q hask hphase hslot hdead =>
    have hq : s.worker.asks = some q := by rw [hask]; rfl
    have hfrom : q.phase ≠ .minted := by rcases hphase with hp | hp <;> simp [hp]
    rw [h.sender_lives hq hfrom hslot] at hdead
    cases hdead
  | empty c q hask hphase | standing c q hask hphase | struck c q hask hphase | timeout c q hask hphase =>
    exact h.phase hask (by simp [hphase]) (by simp)
  | leave c q failure hask hphase =>
    have hq : s.worker.asks = some q := by rw [hask]; rfl
    apply h.resume hq (h.removed hq) rfl
    rintro a ⟨⟩

theorem Reached.desk {s : State Id V R} (h : Reached s) : s.Desk := by
  induction h with
  | refl => exact desk_start
  | tail _ hstep ih => exact hstep.desk ih

end Ral.Serve
