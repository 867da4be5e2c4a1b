import Ral.Serve.Ledger

/-! # The session keeps the ledger

Every step of every thread is an entry, so the books balance in every state reached; and
the busy flag stands for exactly one claim, in whichever hands it is.
-/

namespace Ral.Serve

variable {Id V R : Type}

def Reader.holds : Reader Id V → List (Call Id)
  | .refusing c | .handing c => [c]
  | _ => []

def Worker.holds : Worker Id V R → List (Call Id)
  | .waiting => []
  | .running c | .asking c _ | .finished c _ | .reporting c _ => [c]

def Worker.runs : Worker Id V R → Option (Call Id)
  | .running c | .asking c _ => some c
  | _ => none

/-- The event a call is to end in is of its kind. -/
def Worker.Sound : Worker Id V R → Prop
  | .finished c ev | .reporting c ev => ev.ends c.probing = true
  | _ => True

def State.outstanding (s : State Id V R) : List (Call Id) := s.reader.holds ++ s.queue ++ s.worker.holds

def State.ledger (s : State Id V R) : Ledger Id V R :=
  ⟨s.sent, s.taken, s.outstanding, s.worker.runs, s.children, s.left, s.line⟩

theorem Ledger.Op.same (l : Ledger Id V R) : Ledger.Op l l := .moved l l.outstanding (List.Perm.refl _)

theorem runs_mem_holds {w : Worker Id V R} {c : Call Id} (h : w.runs = some c) : c ∈ w.holds := by
  cases w <;> simp_all [Worker.runs, Worker.holds]

namespace State

variable {s : State Id V R}

theorem arriving_callAt {c : Call Id} (h : s.arriving = some c) : s.ledger.callAt s.ledger.taken = some c := h

theorem ledger_resume {c : Call Id} {q : Asking V} (h : s.worker = .asking c q) (eid : EnquiryId)
    (outcome : Outcome V) (parks : Parks) : ({ s with parks }.resume c eid outcome).ledger = s.ledger := by
  simp [ledger, outstanding, resume, h, Worker.holds, Worker.runs]

theorem ledger_inPhase {c : Call Id} {q : Asking V} (h : s.worker = .asking c q) (phase : Phase) :
    (s.inPhase c q phase).ledger = s.ledger := by
  simp [ledger, outstanding, inPhase, h, Worker.holds, Worker.runs]

theorem ledger_finish {c : Call Id} (h : s.worker.runs = some c) (ev : Event V R) :
    (s.finish c ev).ledger =
      { s.ledger with runner := none, left := s.ledger.left ++ s.ledger.children.map Child.number } := by
  have hholds : s.worker.holds = [c] := by
    cases hw : s.worker <;> simp_all [Worker.runs, Worker.holds]
  have hfinished : (s.finish c ev).outstanding = s.reader.holds ++ s.queue ++ [c] := rfl
  unfold ledger
  rw [hfinished, ← hholds]
  rfl

theorem ledger_deliver {eid : EnquiryId} {tx : Chan} {a : Except String V} (h : s.reader = .filling eid tx a) :
    (s.deliver tx a).ledger = s.ledger := by
  unfold deliver
  split
  · next c q hw =>
      split <;> simp [ledger, outstanding, h, hw, Reader.holds, Worker.holds, Worker.runs]
  · simp [ledger, outstanding, h, Reader.holds]

theorem sound_finish (c : Call Id) {ev : Event V R} (h : ev.ends c.probing = true) :
    (s.finish c ev).worker.Sound := h

end State

theorem balanced_start : (State.start : State Id V R).ledger.Balanced where
  read := Nat.le_refl 0
  known := fun _ hc => by simp [State.ledger, State.outstanding, State.start, Reader.holds, Worker.holds] at hc
  once := by simp [State.ledger, State.outstanding, State.start, Reader.holds, Worker.holds]
  running := fun _ hc => by simp [State.ledger, State.start, Worker.runs] at hc
  parted := fun _ hc => by simp [State.ledger, State.start] at hc
  stamped := fun _ he => by simp [State.ledger, State.start] at he
  unanswered := fun _ hc => by simp [State.ledger, State.outstanding, State.start, Reader.holds, Worker.holds] at hc
  ordered := List.Pairwise.nil
  complete := fun _ n hn => absurd hn (Nat.not_lt_zero n)

variable [Fuse Id V R]

theorem refusal_ends (probing : Bool) (why : String) : (refusal probing why : Event V R).ends probing = true := by
  cases probing <;> rfl

theorem fault_ends (probing : Bool) (why : String) : (fault probing why : Event V R).ends probing = true := by
  cases probing <;> rfl

theorem writeOrSever_unencodable {line : Line Id V R} {c : Call Id} {author : Author} {ev : Event V R} {why : String}
    (h : Fuse.refuses c.id ev = some why) (breaks : Bool) :
    writeOrSever line c author ev breaks = (line, some (.unencodable why)) := by
  simp [writeOrSever, h]

theorem writeOrSever_passed {line : Line Id V R} {c : Call Id} {author : Author} {ev : Event V R}
    (h : Fuse.refuses c.id ev = none) (breaks : Bool) :
    writeOrSever line c author ev breaks = ({ line with severed := true }, some .severed) ∨
      (line.severed = false ∧
        writeOrSever line c author ev breaks = ({ line with wire := line.wire ++ [⟨c.serial, c.id, author, ev⟩] }, none)) := by
  by_cases hbroken : (line.severed || breaks) = true
  · exact Or.inl (by simp only [writeOrSever, h, if_pos hbroken])
  · right
    have hwhole : line.severed = false := by
      cases hsev : line.severed <;> simp_all
    exact ⟨hwhole, by simp only [writeOrSever, h, if_neg hbroken]⟩

theorem engineWrite_passed {line : Line Id V R} {c : Call Id} {author : Author} {ev : Event V R}
    (h : Fuse.refuses c.id ev = none) (breaks : Bool) :
    engineWrite line c author ev breaks = writeOrSever line c author ev breaks := by
  unfold engineWrite
  rcases @writeOrSever_passed _ _ _ _ line c author ev h breaks with hw | ⟨-, hw⟩ <;> rw [hw]

theorem engineWrite_replaced {line : Line Id V R} {c : Call Id} {author : Author} {ev : Event V R} {why : String} {probing : Bool}
    (h : Fuse.refuses c.id ev = some why) (hev : ev.ends probing = true) (breaks : Bool) :
    engineWrite line c author ev breaks = writeOrSever line c author (fault probing why) breaks := by
  unfold engineWrite
  rw [writeOrSever_unencodable h]
  cases ev with
  | surface | enquiry => cases hev
  | report => cases probing <;> first | rfl | cases hev
  | reading => cases probing <;> first | rfl | cases hev

theorem engineWrite_written (line : Line Id V R) (c : Call Id) (author : Author) (ev : Event V R) (breaks : Bool) :
    Written line c author ev (engineWrite line c author ev breaks).1 (engineWrite line c author ev breaks).2 := by
  -- What reaches the writer, once the fuse has passed it.
  have passed : ∀ ev' : Event V R, Fuse.refuses c.id ev' = none → ev'.terminal = ev.terminal →
      (∀ probing, ev'.ends probing = ev.ends probing) → ev'.isSurface = ev.isSurface →
      Written line c author ev (writeOrSever line c author ev' breaks).1 (writeOrSever line c author ev' breaks).2 := by
    intro ev' hpass hterm hends hsurf
    rcases @writeOrSever_passed _ _ _ _ line c author ev' hpass breaks with hw | ⟨hwhole, hw⟩
    · rw [hw]
      exact .broke
    · rw [hw]
      exact .put ev' hwhole hterm hends hsurf
  cases href : Fuse.refuses c.id ev with
  | none =>
    rw [engineWrite_passed href]
    exact passed ev href rfl (fun _ => rfl) rfl
  | some why =>
    cases hterm : ev.terminal with
    | false =>
      have hkept : engineWrite line c author ev breaks = (line, some (.unencodable why)) := by
        unfold engineWrite
        rw [writeOrSever_unencodable href]
        cases ev with
        | surface | enquiry => rfl
        | report | reading => cases hterm
      rw [hkept]
      exact .kept why hterm
    | true =>
      have hends : ev.ends false = true ∨ ev.ends true = true := by
        cases ev <;> simp_all [Event.ends, Event.terminal]
      rcases hends with hend | hend
      · rw [engineWrite_replaced href hend]
        apply passed _ (Fuse.small c.id c.id ev why false href)
        all_goals cases ev <;> simp_all [fault, Event.ends, Event.terminal, Event.isSurface]
      · rw [engineWrite_replaced href hend]
        apply passed _ (Fuse.small c.id c.id ev why true href)
        all_goals cases ev <;> simp_all [fault, Event.ends, Event.terminal, Event.isSurface]

theorem State.ledger_ask {s : State Id V R} {c : Call Id} {q : Asking V} (h : s.worker = .asking c q) (breaks : Bool) :
    (s.ask c q breaks).ledger =
      { s.ledger with line := (engineWrite s.line c .engine (.enquiry q.eid q.req) breaks).1 } := by
  unfold ask
  split <;> next heq => simp [heq, ledger, outstanding, inPhase, h, Worker.holds, Worker.runs]

open Ledger State

/-- Every step is an entry in the ledger. -/
theorem Step.op {s s' : State Id V R} (h : Step s s') (hsound : s.worker.Sound) :
    Op s.ledger s'.ledger ∧ s'.worker.Sound := by
  cases h with
  | send f => exact ⟨.sent s.ledger f, hsound⟩
  | claim c hidle harrive hfree =>
    refine ⟨?_, hsound⟩
    have := Op.opened s.ledger c ([c] ++ s.queue ++ s.worker.holds) (arriving_callAt harrive)
      (by simp [ledger, State.outstanding, hidle, Reader.holds])
    simpa [ledger, State.outstanding, Reader.holds] using this
  | turn c hidle harrive hbusy =>
    refine ⟨?_, hsound⟩
    have := Op.opened s.ledger c ([c] ++ s.queue ++ s.worker.holds) (arriving_callAt harrive)
      (by simp [ledger, State.outstanding, hidle, Reader.holds])
    simpa [ledger, State.outstanding, Reader.holds] using this
  | refuse c breaks href =>
    refine ⟨?_, hsound⟩
    have hperm : s.ledger.outstanding.Perm (c :: (s.queue ++ s.worker.holds)) := by
      simp [ledger, State.outstanding, href, Reader.holds]
    have := Op.answered s.ledger c _ _ _ _ hperm
      (fun k hk => List.mem_append_right _ (runs_mem_holds hk)) (refusal_ends c.probing BUSY)
      (engineWrite_written s.line c .engine (refusal c.probing BUSY) breaks)
    simpa [ledger, State.outstanding, State.write, Reader.holds] using this
  | hand c hhand =>
    refine ⟨?_, hsound⟩
    have hperm : (s.queue ++ [c] ++ s.worker.holds).Perm s.ledger.outstanding := by
      simp only [ledger, State.outstanding, hhand, Reader.holds]
      exact (List.perm_append_comm).append_right _
    have := Op.moved s.ledger _ hperm
    simpa [ledger, State.outstanding, Reader.holds] using this
  | fill eid a hidle hframe =>
    unfold State.fill
    split
    · refine ⟨?_, hsound⟩
      have := Op.passed s.ledger (.answer eid a) hframe rfl
      simpa [ledger, State.outstanding, hidle, Reader.holds] using this
    · exact ⟨Op.passed s.ledger (.answer eid a) hframe rfl, hsound⟩
  | deliver eid tx a hfill =>
    rw [ledger_deliver hfill]
    refine ⟨Op.same _, ?_⟩
    unfold State.deliver
    split
    · split
      · trivial
      · exact hsound
    · exact hsound
  | control hidle hframe => exact ⟨Op.passed s.ledger .control hframe rfl, hsound⟩
  | receive c rest hwait hqueue =>
    refine ⟨?_, trivial⟩
    have hperm : (s.reader.holds ++ rest ++ [c]).Perm s.ledger.outstanding := by
      simp only [ledger, State.outstanding, hwait, hqueue, Worker.holds, List.append_nil, List.append_assoc]
      exact List.Perm.append_left _ (List.perm_append_singleton c rest)
    have := Op.started s.ledger c _ (by simp [ledger, hwait, Worker.runs]) hperm (by simp)
    simpa [ledger, State.outstanding, Worker.holds, Worker.runs] using this
  | surface c val breaks hrun hprobe =>
    exact ⟨Op.emitted s.ledger c (.surface val) _ _ (by simp [ledger, hrun, Worker.runs]) rfl
      (engineWrite_written s.line c .engine (.surface val) breaks), hsound⟩
  | spawn c hrun hprobe =>
    exact ⟨Op.born s.ledger c s.births (by simp [ledger, hrun, Worker.runs]), hsound⟩
  | returned c report hrun hprobe =>
    have hruns : s.worker.runs = some c := by rw [hrun]; rfl
    rw [ledger_finish hruns]
    exact ⟨Op.ended s.ledger, sound_finish c (by simp [Event.ends, hprobe])⟩
  | read c val hrun hprobe =>
    have hruns : s.worker.runs = some c := by rw [hrun]; rfl
    rw [ledger_finish hruns]
    exact ⟨Op.ended s.ledger, sound_finish c (by simp [Event.ends, hprobe])⟩
  | panic c hrun =>
    have hruns : s.worker.runs = some c := by rw [hrun]; rfl
    rw [ledger_finish hruns]
    exact ⟨Op.ended s.ledger, sound_finish c (fault_ends c.probing panicked)⟩
  | drop c ev hfin =>
    rw [hfin] at hsound
    refine ⟨?_, hsound⟩
    have := Op.same s.ledger
    simpa [ledger, State.outstanding, hfin, Worker.holds, Worker.runs] using this
  | report c ev breaks hrep =>
    rw [hrep] at hsound
    refine ⟨?_, trivial⟩
    have hperm : s.ledger.outstanding.Perm (c :: (s.reader.holds ++ s.queue)) := by
      simp only [ledger, State.outstanding, hrep, Worker.holds]
      exact List.perm_append_singleton c _
    have := Op.answered s.ledger c _ ev _ _ hperm (fun k hk => by simp [ledger, hrep, Worker.runs] at hk) hsound
      (engineWrite_written s.line c .engine ev breaks)
    simpa [ledger, State.outstanding, State.write, hrep, Worker.holds, Worker.runs] using this
  | raise c req hrun hprobe =>
    refine ⟨?_, trivial⟩
    have := Op.same s.ledger
    simpa [ledger, State.outstanding, hrun, Worker.holds, Worker.runs] using this
  | register c q hask hphase =>
    show Op s.ledger (s.inPhase c q .registered).ledger ∧ True
    rw [ledger_inPhase hask]
    exact ⟨Op.same _, trivial⟩
  | ask c q breaks hask hphase =>
    rw [ledger_ask hask]
    refine ⟨Op.emitted s.ledger c (.enquiry q.eid q.req) _ _ (by simp [ledger, hask, Worker.runs]) rfl
      (engineWrite_written s.line c .engine (.enquiry q.eid q.req) breaks), ?_⟩
    unfold State.ask
    split <;> trivial
  | received c q a hask hphase hslot =>
    rw [ledger_resume hask q.eid _ s.parks]
    exact ⟨Op.same _, trivial⟩
  | empty c q hask | standing c q hask | struck c q hask | timeout c q hask =>
    rw [ledger_inPhase hask]
    exact ⟨Op.same _, trivial⟩
  | orphaned c q hask hphase hslot hdead =>
    have hruns : s.worker.runs = some c := by rw [hask]; rfl
    rw [ledger_finish hruns]
    exact ⟨Op.ended s.ledger, sound_finish c (fault_ends c.probing panicked)⟩
  | leave c q failure hask hphase =>
    rw [ledger_resume hask]
    exact ⟨Op.same _, trivial⟩
  | childSurface k val breaks hk =>
    exact ⟨Op.childEmitted s.ledger k (.surface val) _ _ hk rfl
      (engineWrite_written s.line k.call (.child k.number) (.surface val) breaks), hsound⟩
  | childSpawn k hk => exact ⟨Op.sprung s.ledger k s.births hk, hsound⟩
  | childEnd k before after hchildren =>
    refine ⟨Op.died s.ledger (before ++ after) ?_, hsound⟩
    show before ++ after ⊆ s.children
    rw [hchildren]
    intro k hk
    rcases List.mem_append.mp hk with hk | hk <;> simp [hk]

theorem Reached.balanced {s : State Id V R} (h : Reached s) : s.ledger.Balanced ∧ s.worker.Sound := by
  induction h with
  | refl => exact ⟨balanced_start, trivial⟩
  | tail _ hstep ih => exact ⟨ih.1.step (hstep.op ih.2).1, (hstep.op ih.2).2⟩

/-! ## The busy flag -/

def Reader.claim : Reader Id V → List (Call Id)
  | .handing c => [c]
  | _ => []

def Worker.claim : Worker Id V R → List (Call Id)
  | .running c | .asking c _ | .finished c _ => [c]
  | _ => []

/-- The `Dispatch`es there are. -/
def State.claims (s : State Id V R) : List (Call Id) := s.reader.claim ++ s.queue ++ s.worker.claim

def State.Locked (s : State Id V R) : Prop := s.claims.length = s.busy.toNat

theorem Step.locked {s s' : State Id V R} (h : Step s s') (hs : s.Locked) : s'.Locked := by
  unfold Locked claims at *
  cases h with
  | send | control | surface | spawn | childSurface | childSpawn | childEnd => exact hs
  | claim c hidle harrive hfree => simp_all [Reader.claim]
  | turn c hidle harrive hbusy => simp_all [Reader.claim]
  | refuse c breaks href => simp_all [Reader.claim, State.write]
  | hand c hhand =>
    simp only [hhand, Reader.claim, List.length_append, List.length_singleton] at hs ⊢
    simp only [List.length_nil]
    omega
  | fill eid a hidle hframe =>
    unfold State.fill
    split <;> simp_all [Reader.claim]
  | deliver eid tx a hfill =>
    unfold State.deliver
    split
    · split <;> simp_all [Reader.claim, Worker.claim]
    · simp_all [Reader.claim]
  | receive c rest hwait hqueue =>
    simp only [hwait, hqueue, Worker.claim, List.length_append, List.length_cons, List.length_nil] at hs ⊢
    omega
  | returned c report hrun | read c val hrun | panic c hrun | raise c req hrun =>
    simp_all [Worker.claim, State.finish]
  | drop c ev hfin =>
    simp only [hfin, Worker.claim, List.length_append, List.length_singleton] at hs ⊢
    have hle := Bool.toNat_le s.busy
    simp only [List.length_nil, Bool.toNat_false]
    omega
  | report c ev breaks hrep => simp_all [Worker.claim, State.write]
  | ask c q breaks hask hphase =>
    unfold State.ask
    split <;> simp_all [Worker.claim, State.inPhase]
  | register c q hask | received c q a hask | empty c q hask | orphaned c q hask | standing c q hask
  | struck c q hask | timeout c q hask | leave c q failure hask =>
    simp_all [Worker.claim, State.inPhase, State.resume, State.finish]

theorem Reached.locked {s : State Id V R} (h : Reached s) : s.Locked := by
  induction h with
  | refl => rfl
  | tail _ hstep ih => exact hstep.locked ih

end Ral.Serve
