import Mathlib.Data.Nat.Notation
import Ral.Serve.Desk

/-! # The session settles

Whatever is owed, some thread can go on, and each step it takes is nearer the end; and a
call sent while nothing is owed finds the engine free.
-/

namespace Ral.Serve

section

variable {Id V R : Type}

/-! ## Nothing owed -/

/-- Nothing is outstanding, and the frames before the one in place `n` open nothing. -/
structure Ledger.Clear (n : ℕ) (l : Ledger Id V R) : Prop where
  empty : l.outstanding = []
  sent : n < l.sent.length
  before : ∀ m, l.taken ≤ m → m < n → l.callAt m = none

theorem Ledger.Clear.step {l l' : Ledger Id V R} {n : ℕ} (h : l.Clear n) (hop : Op l l') :
    n < l'.taken ∨ l'.Clear n := by
  cases hop with
  | moved outstanding hperm =>
    rw [h.empty] at hperm
    exact Or.inr ⟨hperm.eq_nil, h.sent, h.before⟩
  | sent f =>
    refine Or.inr ⟨h.empty, ?_, fun m hm hlt => ?_⟩
    · have := h.sent
      simp only [List.length_append]
      omega
    · have hm' : m < l.sent.length := Nat.lt_trans hlt h.sent
      have := h.before m hm hlt
      simpa only [callAt, List.getElem?_append_left hm'] using this
  | passed f hf hnone => exact Or.inr ⟨h.empty, h.sent, fun m hm hlt => h.before m (Nat.le_of_succ_le hm) hlt⟩
  | opened c outstanding hc hperm =>
    by_cases hlt : l.taken < n
    · have := h.before l.taken (Nat.le_refl _) hlt
      simp [hc] at this
    · exact Or.inl (by show n < l.taken + 1; omega)
  | started c outstanding hidle hperm hc =>
    rw [h.empty] at hperm
    rw [hperm.eq_nil] at hc
    cases hc
  | answered c rest ev line e hperm =>
    rw [h.empty] at hperm
    exact absurd hperm.symm.eq_nil (List.cons_ne_nil _ _)
  | emitted | childEmitted | born | sprung | died | ended => exact Or.inr ⟨h.empty, h.sent, h.before⟩

theorem claims_subset (s : State Id V R) : s.claims.length ≤ s.outstanding.length := by
  have hreader : s.reader.claim.length ≤ s.reader.holds.length := by
    cases s.reader <;> simp [Reader.claim, Reader.holds]
  have hworker : s.worker.claim.length ≤ s.worker.holds.length := by
    cases s.worker <;> simp [Worker.claim, Worker.holds]
  simp only [State.claims, State.outstanding, List.length_append]
  omega

section Runs
variable [Fuse Id V R] {s s' : State Id V R}

/-- The frame in place `n` is not refused, and will not be. -/
def State.Spared (n : ℕ) (s : State Id V R) : Prop := n ∉ s.turned ∧ (n < s.taken ∨ s.ledger.Clear n)

theorem taken_le {s s' : State Id V R} (h : Step s s') : s.taken ≤ s'.taken := by
  cases h with
  | fill => unfold State.fill; split <;> exact Nat.le_succ _
  | deliver =>
    unfold State.deliver
    split
    · split <;> exact Nat.le_refl _
    · exact Nat.le_refl _
  | ask => unfold State.ask; split <;> exact Nat.le_refl _
  | claim | turn | control => exact Nat.le_succ _
  | _ => exact Nat.le_refl _

theorem turned_of_step {n : ℕ} (h : Step s s') (hn : n ∈ s'.turned) :
    n ∈ s.turned ∨ n = s.taken ∧ n < s'.taken ∧ s.busy = true := by
  cases h with
  | turn c hidle harrive hbusy =>
    rcases List.mem_append.mp hn with hn | hn
    · exact Or.inl hn
    · have := Ledger.callAt_serial (State.arriving_callAt harrive)
      have hn := (List.mem_singleton.mp hn).trans this
      exact Or.inr ⟨hn, hn ▸ Nat.lt_succ_self s.taken, hbusy⟩
  | fill => unfold State.fill at hn; split at hn <;> exact Or.inl hn
  | deliver =>
    unfold State.deliver at hn
    split at hn
    · split at hn <;> exact Or.inl hn
    · exact Or.inl hn
  | ask => unfold State.ask at hn; split at hn <;> exact Or.inl hn
  | _ => exact Or.inl hn

theorem State.Spared.step {n : ℕ} (h : s.Spared n) (hlocked : s.Locked) (hsound : s.worker.Sound)
    (hstep : Step s s') : s'.Spared n := by
  refine ⟨fun hn => ?_, ?_⟩
  · rcases turned_of_step hstep hn with hold | ⟨hlast, -, hbusy⟩
    · exact h.1 hold
    · rcases h.2 with hlt | hclear
      · omega
      · have hnone : s.outstanding = [] := hclear.empty
        have hle := claims_subset s
        unfold State.Locked at hlocked
        rw [hlocked, hbusy, hnone] at hle
        simp at hle
  · rcases h.2 with hlt | hclear
    · exact Or.inl (Nat.lt_of_lt_of_le hlt (taken_le hstep))
    · exact hclear.step (hstep.op hsound).1

def State.Answered (s : State Id V R) : Prop :=
  ∀ n c, s.ledger.callAt n = some c → ∃ e ∈ s.line.wire, e.serial = n ∧ e.event.terminal = true

theorem clear_of_answered (h : Reached s) (hquiet : s.Answered) (f : Frame Id V) :
    ({ s with sent := s.sent ++ [f] } : State Id V R).ledger.Clear s.sent.length := by
  have hbal := h.balanced.1
  refine ⟨?_, ?_, fun m hm hlt => ?_⟩
  · show s.outstanding = []
    apply List.eq_nil_iff_forall_not_mem.mpr
    intro c hc
    obtain ⟨e, he, hserial, hterm⟩ := hquiet c.serial c (hbal.known c (List.mem_append_left _ hc)).2
    exact hbal.unanswered c hc e he hterm hserial
  · show s.sent.length < (s.sent ++ [f]).length
    simp
  · rw [Option.eq_none_iff_forall_ne_some]
    intro c hc
    have hold : s.ledger.callAt m = some c := by
      have : (s.sent ++ [f])[m]?.bind (Frame.call? m) = some c := hc
      rwa [List.getElem?_append_left hlt] at this
    obtain ⟨e, he, hserial, -⟩ := hquiet m c hold
    have hread : e.serial < s.taken := (hbal.stamped e he).1
    have hm' : s.taken ≤ m := hm
    omega

theorem turned_lt (h : Reached s) : ∀ n ∈ s.turned, n < s.taken := by
  induction h with
  | refl => intro n hn; cases hn
  | tail _ hstep ih =>
    intro n hn
    rcases turned_of_step hstep hn with hold | ⟨-, hlt, -⟩
    · exact Nat.lt_of_lt_of_le (ih n hold) (taken_le hstep)
    · exact hlt

theorem spared_of_answered (h : Reached s) (hquiet : s.Answered) (f : Frame Id V)
    (hruns : Runs { s with sent := s.sent ++ [f] } s') : s.sent.length ∉ s'.turned := by
  have hsent : Reached ({ s with sent := s.sent ++ [f] } : State Id V R) := h.tail (.send s f)
  have hspared : ({ s with sent := s.sent ++ [f] } : State Id V R).Spared s.sent.length := by
    refine ⟨fun hn => ?_, Or.inr (clear_of_answered h hquiet f)⟩
    have hlt := turned_lt h _ hn
    have hread : s.taken ≤ s.sent.length := h.balanced.1.read
    omega
  suffices hall : Reached s' ∧ s'.Spared s.sent.length from hall.2.1
  induction hruns with
  | refl => exact ⟨hsent, hspared⟩
  | tail _ hstep ih => exact ⟨ih.1.tail hstep, ih.2.step ih.1.locked ih.1.balanced.2 hstep⟩

/-! ## The way to the end -/

def Reader.rank : Reader Id V → ℕ
  | .idle => 0
  | .refusing _ | .filling _ _ _ => 1
  | .handing _ => 15

def Phase.rank : Phase → ℕ
  | .minted => 10
  | .registered => 9
  | .receiving => 7
  | .trying => 6
  | .polling => 5
  | .leaving _ => 4

def Worker.rank : Worker Id V R → ℕ
  | .waiting => 0
  | .running _ => 3
  | .asking _ q => q.phase.rank
  | .finished _ _ => 2
  | .reporting _ _ => 1

/-- How far the frames sent are from their answers. -/
def State.rank (s : State Id V R) : ℕ :=
  20 * (s.sent.length - s.taken) + s.reader.rank + 14 * s.queue.length + s.worker.rank

theorem engineWrite_whole {line : Line Id V R} (h : line.severed = false) (c : Call Id) (ev : Event V R) :
    (engineWrite line c .engine ev false).1.severed = false := by
  have hone : ∀ (line : Line Id V R) (ev : Event V R), line.severed = false →
      (writeOrSever line c .engine ev false).1.severed = false := by
    intro line ev h
    unfold writeOrSever
    split
    · exact h
    · simp [h]
  unfold engineWrite
  split
  · next middle why report heq =>
      have hmiddle := hone line (.report report) h
      rw [heq] at hmiddle
      exact hone middle _ hmiddle
  · next middle why reading heq =>
      have hmiddle := hone line (.reading reading) h
      rw [heq] at hmiddle
      exact hone middle _ hmiddle
  · exact hone line _ h

def State.Nearer (s s' : State Id V R) : Prop :=
  Step s s' ∧ s'.rank < s.rank ∧ s'.sent = s.sent ∧ s'.line.severed = false

theorem nearer_reader (hwhole : s.line.severed = false) (h : s.reader ≠ .idle) : ∃ s', s.Nearer s' := by
  cases hr : s.reader with
  | idle => exact absurd hr h
  | refusing c =>
    refine ⟨_, .refuse s c false hr, ?_, rfl, engineWrite_whole hwhole c _⟩
    simp [State.rank, State.write, hr, Reader.rank]
  | handing c =>
    refine ⟨_, .hand s c hr, ?_, rfl, hwhole⟩
    simp only [State.rank, hr, Reader.rank, List.length_append, List.length_singleton]
    omega
  | filling eid tx a =>
    refine ⟨_, .deliver s eid tx a hr, ?_, ?_, ?_⟩
    · unfold State.deliver
      split
      · next c q hw =>
          split <;> simp [State.rank, hr, hw, Reader.rank, Worker.rank]
      · simp [State.rank, hr, Reader.rank]
    all_goals
      unfold State.deliver
      split
      · split <;> first | rfl | exact hwhole
      · first | rfl | exact hwhole

theorem nearer_taking (hwhole : s.line.severed = false) (hidle : s.reader = .idle)
    (h : s.taken < s.sent.length) : ∃ s', s.Nearer s' := by
  have hframe := List.getElem?_eq_getElem h
  -- Any frame read is twenty nearer, and what it leaves in the reader's hands less than that.
  have hrank : ∀ (r : Reader Id V) (s' : State Id V R), s'.sent = s.sent → s'.taken = s.taken + 1 →
      s'.reader = r → s'.queue = s.queue → s'.worker = s.worker → r.rank < 20 → s'.rank < s.rank := by
    intro r s' hsent htaken hreader hqueue hworker hr
    have hzero : s.reader.rank = 0 := by rw [hidle]; rfl
    simp only [State.rank, hsent, htaken, hreader, hqueue, hworker, hzero]
    omega
  have hcall : ∀ c, s.arriving = some c → ∃ s', s.Nearer s' := by
    intro c hc
    cases hbusy : s.busy with
    | false => exact ⟨_, .claim s c hidle hc hbusy, hrank _ _ rfl rfl rfl rfl rfl (by simp [Reader.rank]), rfl, hwhole⟩
    | true => exact ⟨_, .turn s c hidle hc hbusy, hrank _ _ rfl rfl rfl rfl rfl (by simp [Reader.rank]), rfl, hwhole⟩
  cases hf : s.sent[s.taken] with
  | dispatch id => exact hcall ⟨s.taken, id, false⟩ (by simp [State.arriving, hframe, hf, Frame.call?])
  | probe id => exact hcall ⟨s.taken, id, true⟩ (by simp [State.arriving, hframe, hf, Frame.call?])
  | answer eid a =>
    refine ⟨_, .fill s eid a hidle (by rw [hframe, hf]), ?_, ?_, ?_⟩
    · unfold State.fill
      split
      · exact hrank _ _ rfl rfl rfl rfl rfl (by simp [Reader.rank])
      · exact hrank _ _ rfl rfl hidle rfl rfl (by simp [Reader.rank])
    all_goals
      unfold State.fill
      split <;> first | rfl | exact hwhole
  | control =>
    exact ⟨_, .control s hidle (by rw [hframe, hf]), hrank _ _ rfl rfl hidle rfl rfl (by simp [Reader.rank]), rfl, hwhole⟩

theorem nearer_asking (hwhole : s.line.severed = false) {c : Call Id} {q : Asking V}
    (hw : s.worker = .asking c q) : ∃ s', s.Nearer s' := by
  cases hphase : q.phase with
  | minted =>
    refine ⟨_, .register s c q hw hphase, ?_, rfl, hwhole⟩
    simp [State.rank, State.inPhase, hw, Worker.rank, hphase, Phase.rank]
  | registered =>
    refine ⟨_, .ask s c q false hw hphase, ?_, ?_, ?_⟩
    · unfold State.ask
      split <;> simp [State.rank, State.inPhase, hw, Worker.rank, hphase, Phase.rank]
    · unfold State.ask
      split <;> rfl
    · have hline := engineWrite_whole hwhole c (.enquiry q.eid q.req)
      unfold State.ask
      split <;> next heq => simpa [State.inPhase, heq] using hline
  | trying =>
    cases hslot : q.slot with
    | some a =>
      refine ⟨_, .received s c q a hw (Or.inl hphase) hslot, ?_, rfl, hwhole⟩
      simp [State.rank, State.resume, hw, Worker.rank, hphase, Phase.rank]
    | none =>
      cases hlives : s.senderLives q.eid q.rx with
      | true =>
        refine ⟨_, .empty s c q hw hphase hslot hlives, ?_, rfl, hwhole⟩
        simp [State.rank, State.inPhase, hw, Worker.rank, hphase, Phase.rank]
      | false =>
        refine ⟨_, .orphaned s c q hw (Or.inl hphase) hslot hlives, ?_, rfl, hwhole⟩
        simp [State.rank, State.finish, hw, Worker.rank, hphase, Phase.rank]
  | polling =>
    refine ⟨_, .struck s c q hw hphase, ?_, rfl, hwhole⟩
    simp [State.rank, State.inPhase, hw, Worker.rank, hphase, Phase.rank]
  | receiving =>
    refine ⟨_, .timeout s c q hw hphase, ?_, rfl, hwhole⟩
    simp [State.rank, State.inPhase, hw, Worker.rank, hphase, Phase.rank]
  | leaving failure =>
    refine ⟨_, .leave s c q failure hw hphase, ?_, rfl, hwhole⟩
    simp [State.rank, State.resume, hw, Worker.rank, hphase, Phase.rank]

theorem nearer_worker (hwhole : s.line.severed = false) (h : s.worker ≠ .waiting) : ∃ s', s.Nearer s' := by
  cases hw : s.worker with
  | waiting => exact absurd hw h
  | running c =>
    refine ⟨_, .panic s c hw, ?_, rfl, hwhole⟩
    simp [State.rank, State.finish, hw, Worker.rank]
  | asking c q => exact nearer_asking hwhole hw
  | finished c ev =>
    refine ⟨_, .drop s c ev hw, ?_, rfl, hwhole⟩
    simp [State.rank, hw, Worker.rank]
  | reporting c ev =>
    refine ⟨_, .report s c ev false hw, ?_, rfl, engineWrite_whole hwhole c ev⟩
    simp [State.rank, State.write, hw, Worker.rank]

theorem exists_nearer (hwhole : s.line.severed = false) (h : s.rank ≠ 0) : ∃ s', s.Nearer s' := by
  by_cases hreader : s.reader = .idle
  · by_cases hworker : s.worker = .waiting
    · by_cases htaken : s.taken < s.sent.length
      · exact nearer_taking hwhole hreader htaken
      · cases hqueue : s.queue with
        | nil =>
          simp only [State.rank, hreader, hworker, hqueue, Reader.rank, Worker.rank, List.length_nil] at h
          omega
        | cons c rest =>
          refine ⟨_, .receive s c rest hworker hqueue, ?_, rfl, hwhole⟩
          simp only [State.rank, hworker, hqueue, Worker.rank, List.length_cons]
          omega
    · exact nearer_worker hwhole hworker
  · exact nearer_reader hwhole hreader

theorem exists_settled (hwhole : s.line.severed = false) :
    ∃ s', Runs s s' ∧ s'.rank = 0 ∧ s'.sent = s.sent ∧ s'.line.severed = false := by
  generalize hrank : s.rank = rank
  induction rank using Nat.strongRecOn generalizing s with
  | _ rank ih =>
    by_cases hzero : s.rank = 0
    · exact ⟨s, .refl, hzero, rfl, hwhole⟩
    · obtain ⟨next, hstep, hlt, hsent, hnext⟩ := exists_nearer hwhole hzero
      obtain ⟨s', hruns, hend, hsent', hwhole'⟩ := ih next.rank (hrank ▸ hlt) hnext rfl
      exact ⟨s', .head hstep hruns, hend, hsent'.trans hsent, hwhole'⟩

/-- At the end nothing is owed. -/
theorem answered_of_rank (h : Reached s) (hwhole : s.line.severed = false) (hrank : s.rank = 0) : s.Answered := by
  intro n c hc
  have hbal := h.balanced.1
  have hreader : s.reader.holds = [] := by
    cases hr : s.reader <;> simp_all [State.rank, Reader.rank, Reader.holds]
  have hworker : s.worker.holds = [] := by
    cases hw : s.worker with
    | waiting => rfl
    | asking c q => cases hphase : q.phase <;> simp [State.rank, hw, Worker.rank, hphase, Phase.rank] at hrank
    | _ => simp [State.rank, hw, Worker.rank] at hrank
  have hqueue : s.queue = [] := by
    apply List.eq_nil_of_length_eq_zero
    unfold State.rank at hrank
    omega
  have hempty : s.ledger.outstanding = [] := by
    show s.outstanding = []
    simp [State.outstanding, hreader, hqueue, hworker]
  have hn : n < s.ledger.taken := by
    obtain ⟨f, hf, -⟩ := Option.bind_eq_some_iff.mp hc
    have hlt : n < s.sent.length := (List.getElem?_eq_some_iff.mp hf).choose
    show n < s.taken
    unfold State.rank at hrank
    omega
  rcases hbal.complete hwhole n hn c hc with hout | hans
  · rw [hempty] at hout
    cases hout
  · exact hans

end Runs

end

/-! ## Every call has one answer

Reports and readings, refusals and faults among them, are written once and under their own
ids; the busy flag falls before they are; and an answer to an enquiry reaches that enquiry
or nobody.
-/

variable {Id V R : Type}

/-- What the wire says of the call in place `n` that ends the front-end's wait. -/
def State.answersTo (s : State Id V R) (n : ℕ) : List (Sent Id V R) :=
  s.line.wire.filter fun e => e.serial = n ∧ e.event.terminal = true

section Runs
variable [Fuse Id V R] {s : State Id V R}

theorem answersTo_le (h : Reached s) (n : ℕ) : (s.answersTo n).length ≤ 1 := h.balanced.1.answers_le n

theorem answersTo_eq (h : Reached s) {n : ℕ} (hans : ∃ e ∈ s.line.wire, e.serial = n ∧ e.event.terminal = true) :
    (s.answersTo n).length = 1 := by
  obtain ⟨e, he, hserial, hterm⟩ := hans
  have hmem : e ∈ s.answersTo n := by simp [State.answersTo, he, hserial, hterm]
  have hpos := List.length_pos_of_mem hmem
  have hle := answersTo_le h n
  omega

theorem answersTo_or (h : Reached s) (hwhole : s.line.severed = false) {n : ℕ} {c : Call Id}
    (hc : s.ledger.callAt n = some c) : s.taken ≤ n ∨ c ∈ s.outstanding ∨ (s.answersTo n).length = 1 := by
  by_cases hn : n < s.taken
  · rcases h.balanced.1.complete hwhole n hn c hc with hout | hans
    · exact Or.inr (Or.inl hout)
    · exact Or.inr (Or.inr (answersTo_eq h hans))
  · exact Or.inl (not_lt.mp hn)

theorem can_answer (h : Reached s) (hwhole : s.line.severed = false) :
    ∃ s', Runs s s' ∧ s'.sent = s.sent ∧ s'.line.severed = false ∧
      ∀ n c, s'.ledger.callAt n = some c → (s'.answersTo n).length = 1 := by
  obtain ⟨s', hruns, hrank, hsent, hwhole'⟩ := exists_settled hwhole
  have hreached : Reached s' := h.trans hruns
  exact ⟨s', hruns, hsent, hwhole', fun n c hc =>
    answersTo_eq hreached (answered_of_rank hreached hwhole' hrank n c hc)⟩

theorem carried_own (h : Reached s) {eid : EnquiryId} {a : Except String V} {q : Asking V}
    (hr : s.reader = .filling eid q.rx a) (hq : s.worker.asks = some q) : q.eid = eid := by
  have hcarries : s.reader.Carries q.rx := ⟨eid, a, hr⟩
  by_cases hphase : q.phase = .minted
  · exact absurd hcarries (h.desk.minted q hq hphase).2.2
  · cases h.desk.stands q hq hphase with
    | parked _ _ hnot => exact absurd hcarries hnot
    | landed _ _ _ hnot => exact absurd hcarries hnot
    | carried b _ _ hr' =>
      rw [hr] at hr'
      cases hr'
      rfl

theorem parked_own (h : Reached s) {eid : EnquiryId} {tx : Chan} (hmem : (eid, tx) ∈ s.parks.parked) :
    ∃ q, s.worker.asks = some q ∧ q.eid = eid ∧ q.rx = tx ∧ q.slot = none ∧ eid ∉ s.outcomes.map Prod.fst := by
  cases hq : s.worker.asks with
  | none =>
    rw [h.desk.empty hq] at hmem
    cases hmem
  | some q =>
    have hfresh := (h.desk.fresh q hq).2.2
    by_cases hphase : q.phase = .minted
    · rw [(h.desk.minted q hq hphase).1] at hmem
      cases hmem
    · cases h.desk.stands q hq hphase with
      | carried _ hp => rw [hp] at hmem; cases hmem
      | landed _ hp => rw [hp] at hmem; cases hmem
      | parked hp hslot _ =>
        rw [hp, List.mem_singleton, Prod.mk.injEq] at hmem
        exact ⟨q, rfl, hmem.1.symm, hmem.2.symm, hslot, hmem.1 ▸ hfresh⟩

omit [Fuse Id V R] in
theorem fill_gone {eid : EnquiryId} (h : ∀ tx, (eid, tx) ∉ s.parks.parked) (a : Except String V) :
    s.fill eid a = { s with taken := s.taken + 1 } := by
  have hnone : s.parks.find eid = none := by
    unfold Parks.find
    rw [List.lookup_eq_none_iff]
    intro e he
    by_contra hne
    have : eid = e.1 := by simpa using hne
    exact h e.2 (this ▸ he)
  unfold State.fill
  rw [hnone]

omit [Fuse Id V R] in
theorem deliver_gone {tx : Chan} (h : ∀ q, s.worker.asks = some q → q.rx ≠ tx) (a : Except String V) :
    s.deliver tx a = { s with reader := .idle } := by
  unfold State.deliver
  split
  · next c q hw => rw [if_neg (h q (by rw [hw]; rfl))]
  · rfl

/-- Whatever frames the front-end sends and however the threads interleave. -/
theorem Reached.answers_once (h : Reached s) :
    -- One answer to a call at most, of its kind and under its id.
    (∀ n, (s.answersTo n).length ≤ 1) ∧
    (∀ e ∈ s.line.wire, ∃ c, s.ledger.callAt e.serial = some c ∧ e.id = c.id ∧
      (e.event.terminal = true → e.event.ends c.probing = true)) ∧
    -- While the wire holds it has one, or is in the threads' hands or yet to be read; and it can have one.
    (s.line.severed = false →
      (∀ n c, s.ledger.callAt n = some c → s.taken ≤ n ∨ c ∈ s.outstanding ∨ (s.answersTo n).length = 1) ∧
      ∃ s', Runs s s' ∧ s'.sent = s.sent ∧ s'.line.severed = false ∧
        ∀ n c, s'.ledger.callAt n = some c → (s'.answersTo n).length = 1) ∧
    -- What a run itself wrote, and its children that had ended when it returned, precedes its answer.
    (s.line.wire.Pairwise fun a b => a.event.terminal = true → b.serial = a.serial →
      b.event.isSurface = true ∧ ∃ number ∈ s.left, b.author = .child number) ∧
    -- A call sent once every earlier one is answered is not refused.
    (s.Answered → ∀ f s', Runs { s with sent := s.sent ++ [f] } s' → s.sent.length ∉ s'.turned) ∧
    -- An enquiry comes back once, and with an answer only if that answer was sent to it.
    ((s.outcomes.map Prod.fst).Nodup ∧ ∀ eid a, (eid, .answered a) ∈ s.outcomes → .answer eid a ∈ s.sent) ∧
    (∀ eid a q, s.reader = .filling eid q.rx a → s.worker.asks = some q → q.eid = eid) ∧
    -- Only an enquiry under way and unanswered is parked; an answer to anything else is dropped.
    (∀ eid tx, (eid, tx) ∈ s.parks.parked →
      ∃ q, s.worker.asks = some q ∧ q.eid = eid ∧ q.rx = tx ∧ q.slot = none ∧ eid ∉ s.outcomes.map Prod.fst) ∧
    (∀ eid a, (∀ tx, (eid, tx) ∉ s.parks.parked) → s.fill eid a = { s with taken := s.taken + 1 }) ∧
    ∀ tx a, (∀ q, s.worker.asks = some q → q.rx ≠ tx) → s.deliver tx a = { s with reader := .idle } :=
  ⟨answersTo_le h, fun e he => (h.balanced.1.stamped e he).2,
    fun hwhole => ⟨fun _ _ hc => answersTo_or h hwhole hc, can_answer h hwhole⟩,
    h.balanced.1.ordered, fun hquiet f _ hruns => spared_of_answered h hquiet f hruns,
    ⟨h.desk.once, h.desk.answered⟩, fun _ _ _ hr hq => carried_own h hr hq, fun _ _ hmem => parked_own h hmem,
    fun _ a hnone => fill_gone hnone a, fun _ a hnone => deliver_gone hnone a⟩

end Runs

/-! ## Concrete runs -/

/-- A fuse that passes whatever is small. -/
instance : Fuse ℕ Unit Unit where
  spanless := id
  refuses := fun _ _ => none
  small := fun _ _ _ _ _ h => by cases h

theorem reached_refused : ∃ s : State ℕ Unit Unit, Reached s ∧ s.sent = [.dispatch 7, .dispatch 8] ∧
    s.turned = [1] ∧ s.line = ⟨[⟨1, 8, .engine, refusal false BUSY⟩], false⟩ ∧ s.taken = 2 ∧ s.reader = .idle ∧
    s.busy = true := by
  have sent := (Relation.ReflTransGen.refl (r := Step) (a := (State.start : State ℕ Unit Unit))).tail
    (.send _ (.dispatch 7))
  have claimed := (sent.tail (.claim _ ⟨0, 7, false⟩ rfl rfl rfl)).tail (.hand _ ⟨0, 7, false⟩ rfl)
  have turned := (claimed.tail (.send _ (.dispatch 8))).tail (.turn _ ⟨1, 8, false⟩ rfl rfl rfl)
  exact ⟨_, turned.tail (.refuse _ ⟨1, 8, false⟩ false rfl), rfl, rfl, rfl, rfl, rfl, rfl⟩

theorem answers_once_of_two : ∃ s : State ℕ Unit Unit, Reached s ∧ s.turned = [1] ∧
    (∀ n, (s.answersTo n).length ≤ 1) ∧ ∃ s', Runs s s' ∧ s'.sent = s.sent ∧ s'.line.severed = false ∧
      ∀ n c, s'.ledger.callAt n = some c → (s'.answersTo n).length = 1 := by
  obtain ⟨s, hreached, -, hturned, hline, -⟩ := reached_refused
  have hall := hreached.answers_once
  have hwhole : s.line.severed = false := by rw [hline]
  exact ⟨s, hreached, hturned, hall.1, (hall.2.2.1 hwhole).2⟩

/-- A gathered child that outlives its run surfaces after the report; and a dispatch sent
after the refusal of the one before it is refused, while the first still runs. -/
theorem surface_after_report_and_refused_again :
    (∃ (s : State ℕ Unit Unit) (report : Report Unit), Reached s ∧
      s.line.wire = [⟨0, 7, .engine, .report report⟩, ⟨0, 7, .child 0, .surface ()⟩]) ∧
    ∃ s s' : State ℕ Unit Unit, Reached s ∧ s.sent.length = 2 ∧ (s.answersTo 1).length = 1 ∧
      Runs { s with sent := s.sent ++ [.dispatch 9] } s' ∧ 2 ∈ s'.turned := by
  constructor
  · have sent := (Relation.ReflTransGen.refl (r := Step) (a := (State.start : State ℕ Unit Unit))).tail
      (.send _ (.dispatch 7))
    have handed := (sent.tail (.claim _ ⟨0, 7, false⟩ rfl rfl rfl)).tail (.hand _ ⟨0, 7, false⟩ rfl)
    have running := handed.tail (.receive _ ⟨0, 7, false⟩ [] rfl rfl)
    have returned := (running.tail (.spawn _ ⟨0, 7, false⟩ rfl rfl)).tail (.returned _ ⟨0, 7, false⟩ (.ran ()) rfl rfl)
    have dropped := returned.tail (.drop _ ⟨0, 7, false⟩ (.report (.ran ())) rfl)
    have reported := dropped.tail (.report _ ⟨0, 7, false⟩ (.report (.ran ())) false rfl)
    exact ⟨_, .ran (), reported.tail (.childSurface _ ⟨⟨0, 7, false⟩, 0⟩ () false (List.mem_singleton_self _)), rfl⟩
  · obtain ⟨s, hreached, hsent, hturned, hline, htaken, hidle, hbusy⟩ := reached_refused
    have harrive : ({ s with sent := s.sent ++ [.dispatch 9] } : State ℕ Unit Unit).arriving = some ⟨2, 9, false⟩ := by
      simp [State.arriving, hsent, htaken, Frame.call?]
    refine ⟨s, _, hreached, by rw [hsent]; rfl, ?_, .single (.turn _ ⟨2, 9, false⟩ hidle harrive hbusy), by simp⟩
    simp [State.answersTo, hline, refusal, Event.terminal]

end Ral.Serve
