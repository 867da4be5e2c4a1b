import Mathlib.Data.List.Basic
import Mathlib.Data.Nat.Notation
import Mathlib.Logic.Relation

/-! # The engine's half of the wire

A reader that takes the front-end's frames, a worker that owns the engine, the children a
run gathers, and the one writer they share. Every step is one atomic action of one thread.
-/

namespace Ral.Serve

abbrev EnquiryId : Type := ℕ

/-- A rendezvous of one enquiry: a sender and its receiver. -/
abbrev Chan : Type := ℕ

variable {Id V R : Type}

/-- A dispatch's terminal frame; what a run settled on is opaque. -/
inductive Report (R : Type)
  | static (rendered : String)
  | ran (ran : R)
  | faulted (rendered : String)
  deriving DecidableEq

inductive Event (V R : Type)
  | surface (val : V)
  | enquiry (eid : EnquiryId) (req : V)
  | report (report : Report R)
  | reading (reading : Except String V)

/-- What the front-end is waiting for: a run ends in a report, a probe in its reading. -/
def Event.ends (probing : Bool) : Event V R → Bool
  | .report _ => !probing
  | .reading _ => probing
  | _ => false

def Event.terminal : Event V R → Bool
  | .report _ | .reading _ => true
  | _ => false

def Event.isSurface : Event V R → Bool
  | .surface _ => true
  | _ => false

/-- The one-liner a failure outside a run's own report is rendered as. -/
class Wording where
  spanless : String → String

section Wording
variable [Wording]

def Report.refused (message : String) : Report R := .static (Wording.spanless message)

def Report.fault (message : String) : Report R := .faulted (Wording.spanless message)

def refusal (probing : Bool) (why : String) : Event V R :=
  if probing then .reading (.error why) else .report (.refused why)

def fault (probing : Bool) (why : String) : Event V R :=
  if probing then .reading (.error why) else .report (.fault why)

end Wording

def BUSY : String := "engine busy"

def panicked : String := "engine: dispatch panicked in the engine worker"

/-- What the encoder refuses of an event under its dispatch, and in which words. A fault
that quotes a refusal is small enough to pass. -/
class Fuse (Id V R : Type) extends Wording where
  refuses : Id → Event V R → Option String
  small : ∀ (id id' : Id) (ev : Event V R) (why : String) (probing : Bool), refuses id ev = some why →
    refuses id' (fault probing why) = none

/-- The front-end's frames. -/
inductive Frame (Id V : Type)
  | dispatch (id : Id)
  | probe (id : Id)
  | answer (eid : EnquiryId) (answer : Except String V)
  /-- A strike, or the end of the root: the scopes hear it. -/
  | control

/-- A dispatch or a probe the reader has read, by its place among the frames. -/
structure Call (Id : Type) where
  serial : ℕ
  id : Id
  probing : Bool
  deriving DecidableEq

def Frame.call? (serial : ℕ) : Frame Id V → Option (Call Id)
  | .dispatch id => some ⟨serial, id, false⟩
  | .probe id => some ⟨serial, id, true⟩
  | _ => none

/-! ## The shared writer -/

/-- Which thread wrote an event: the reader or the worker, or a child of a run. -/
inductive Author
  | engine
  | child (number : ℕ)

/-- An event on the wire, under the id it is stamped with. -/
structure Sent (Id V R : Type) where
  /-- The frame whose dispatch wrote it. -/
  serial : ℕ
  id : Id
  author : Author
  event : Event V R

structure Line (Id V R : Type) where
  wire : List (Sent Id V R)
  /-- A write failed, and the channel was shut down. -/
  severed : Bool

inductive WriteError
  | severed
  | unencodable (why : String)

variable [Fuse Id V R]

/-- One write under the lock; `breaks` when the channel gives way under it. -/
def writeOrSever (line : Line Id V R) (c : Call Id) (author : Author) (ev : Event V R) (breaks : Bool) :
    Line Id V R × Option WriteError :=
  match Fuse.refuses c.id ev with
  | some why => (line, some (.unencodable why))
  | none =>
    if line.severed || breaks then ({ line with severed := true }, some .severed)
    else ({ line with wire := line.wire ++ [⟨c.serial, c.id, author, ev⟩] }, none)

/-- A refused end is replaced by a small fault; another refusal goes back to its writer. -/
def engineWrite (line : Line Id V R) (c : Call Id) (author : Author) (ev : Event V R) (breaks : Bool) :
    Line Id V R × Option WriteError :=
  match writeOrSever line c author ev breaks, ev with
  | (line, some (.unencodable why)), .report _ => writeOrSever line c author (fault false why) breaks
  | (line, some (.unencodable why)), .reading _ => writeOrSever line c author (fault true why) breaks
  | outcome, _ => outcome

/-! ## Enquiries -/

/-- The live parks, by the id their answer will carry. -/
structure Parks where
  next : EnquiryId
  parked : List (EnquiryId × Chan)

def Parks.insert (eid : EnquiryId) (tx : Chan) (p : Parks) : Parks :=
  { p with parked := (eid, tx) :: p.parked.filter fun e => e.1 ≠ eid }

def Parks.find (eid : EnquiryId) (p : Parks) : Option Chan := p.parked.lookup eid

def Parks.remove (eid : EnquiryId) (p : Parks) : Parks :=
  { p with parked := p.parked.filter fun e => e.1 ≠ eid }

/-- Why an enquiry came back without an answer. -/
inductive Failure
  /-- The host connection is down. -/
  | lost
  | unasked (why : String)
  /-- The scope's own stop. -/
  | stopped

inductive Outcome (V : Type)
  | answered (answer : Except String V)
  | failed (failure : Failure)

def WriteError.failure : WriteError → Failure
  | .severed => .lost
  | .unencodable why => .unasked why

inductive Phase
  | minted
  | registered
  /-- Before `try_recv`. -/
  | trying
  /-- Before the scope's poll. -/
  | polling
  /-- In `recv_timeout`. -/
  | receiving
  /-- Before the park is removed. -/
  | leaving (failure : Failure)

structure Asking (V : Type) where
  eid : EnquiryId
  req : V
  rx : Chan
  phase : Phase
  /-- What the channel holds. -/
  slot : Option (Except String V)

/-! ## The threads -/

inductive Reader (Id V : Type)
  | idle
  /-- The claim is lost: the refusal is still to be written. -/
  | refusing (c : Call Id)
  /-- The claim is won and not yet handed over. -/
  | handing (c : Call Id)
  /-- A sender taken out of the table, and the answer it is to carry. -/
  | filling (eid : EnquiryId) (tx : Chan) (answer : Except String V)

inductive Worker (Id V R : Type)
  | waiting
  | running (c : Call Id)
  | asking (c : Call Id) (q : Asking V)
  /-- The claim still held. -/
  | finished (c : Call Id) (ev : Event V R)
  /-- The claim dropped. -/
  | reporting (c : Call Id) (ev : Event V R)

/-- A thread gathered under a run. -/
structure Child (Id : Type) where
  call : Call Id
  number : ℕ

structure State (Id V R : Type) where
  /-- Every frame the front-end has sent. -/
  sent : List (Frame Id V)
  /-- How many of them the reader has read. -/
  taken : ℕ
  reader : Reader Id V
  busy : Bool
  queue : List (Call Id)
  worker : Worker Id V R
  parks : Parks
  /-- Rendezvous made so far. -/
  chans : ℕ
  /-- The threads gathered under a run that still live. -/
  children : List (Child Id)
  /-- Children started so far. -/
  births : ℕ
  line : Line Id V R
  /-- The frames refused as busy. -/
  turned : List ℕ
  /-- The children still alive when their run returned, and those they started since. -/
  left : List ℕ
  outcomes : List (EnquiryId × Outcome V)

namespace State

def start : State Id V R :=
  ⟨[], 0, .idle, false, [], .waiting, ⟨0, []⟩, 0, [], 0, ⟨[], false⟩, [], [], []⟩

variable (s : State Id V R)

/-- The next frame to read, as the dispatch or probe it is. -/
def arriving : Option (Call Id) := s.sent[s.taken]?.bind (Frame.call? s.taken)

def write (c : Call Id) (author : Author) (ev : Event V R) (breaks : Bool) : State Id V R :=
  { s with line := (engineWrite s.line c author ev breaks).1 }

/-- Whether a sender for `rx` is still held: in the table, or by the reader. -/
def senderLives (eid : EnquiryId) (rx : Chan) : Bool :=
  s.parks.find eid = some rx || match s.reader with
    | .filling _ tx _ => tx = rx
    | _ => false

/-- `Parks::fill` as far as the table. -/
def fill (eid : EnquiryId) (answer : Except String V) : State Id V R :=
  match s.parks.find eid with
  | some tx =>
    { s with taken := s.taken + 1, parks := s.parks.remove eid, reader := .filling eid tx answer }
  | none => { s with taken := s.taken + 1 }

/-- The send: a receiver that has gone gets nothing. -/
def deliver (tx : Chan) (answer : Except String V) : State Id V R :=
  match s.worker with
  | .asking c q =>
    if q.rx = tx then { s with reader := .idle, worker := .asking c { q with slot := some answer } }
    else { s with reader := .idle }
  | _ => { s with reader := .idle }

/-- The enquiry is over, and its run goes on. -/
def resume (c : Call Id) (eid : EnquiryId) (outcome : Outcome V) : State Id V R :=
  { s with worker := .running c, outcomes := s.outcomes ++ [(eid, outcome)] }

def inPhase (c : Call Id) (q : Asking V) (phase : Phase) : State Id V R :=
  { s with worker := .asking c { q with phase } }

/-- The run or probe is over, in `ev`. -/
def finish (c : Call Id) (ev : Event V R) : State Id V R :=
  { s with worker := .finished c ev, left := s.left ++ s.children.map Child.number }

/-- The event asking `q` goes out; a write that fails ends the enquiry. -/
def ask (c : Call Id) (q : Asking V) (breaks : Bool) : State Id V R :=
  match engineWrite s.line c .engine (.enquiry q.eid q.req) breaks with
  | (line, none) => ({ s with line } : State Id V R).inPhase c q .trying
  | (line, some e) => ({ s with line } : State Id V R).inPhase c q (.leaving e.failure)

end State

/-- One atomic action of the front-end, the reader, the worker or a child. -/
inductive Step : State Id V R → State Id V R → Prop
  | send (s : State Id V R) (f : Frame Id V) : Step s { s with sent := s.sent ++ [f] }
  -- The reader.
  | claim (s : State Id V R) (c : Call Id) : s.reader = .idle → s.arriving = some c → s.busy = false →
      Step s { s with taken := s.taken + 1, busy := true, reader := .handing c }
  | turn (s : State Id V R) (c : Call Id) : s.reader = .idle → s.arriving = some c → s.busy = true →
      Step s { s with taken := s.taken + 1, reader := .refusing c, turned := s.turned ++ [c.serial] }
  | refuse (s : State Id V R) (c : Call Id) (breaks : Bool) : s.reader = .refusing c →
      Step s { s.write c .engine (refusal c.probing BUSY) breaks with reader := .idle }
  | hand (s : State Id V R) (c : Call Id) : s.reader = .handing c →
      Step s { s with queue := s.queue ++ [c], reader := .idle }
  | fill (s : State Id V R) (eid : EnquiryId) (a : Except String V) : s.reader = .idle →
      s.sent[s.taken]? = some (.answer eid a) → Step s (s.fill eid a)
  | deliver (s : State Id V R) (eid : EnquiryId) (tx : Chan) (a : Except String V) :
      s.reader = .filling eid tx a → Step s (s.deliver tx a)
  | control (s : State Id V R) : s.reader = .idle → s.sent[s.taken]? = some .control →
      Step s { s with taken := s.taken + 1 }
  -- The worker.
  | receive (s : State Id V R) (c : Call Id) (rest : List (Call Id)) : s.worker = .waiting →
      s.queue = c :: rest → Step s { s with queue := rest, worker := .running c }
  | surface (s : State Id V R) (c : Call Id) (val : V) (breaks : Bool) : s.worker = .running c →
      c.probing = false → Step s (s.write c .engine (.surface val) breaks)
  | spawn (s : State Id V R) (c : Call Id) : s.worker = .running c → c.probing = false →
      Step s { s with children := ⟨c, s.births⟩ :: s.children, births := s.births + 1 }
  | returned (s : State Id V R) (c : Call Id) (report : Report R) : s.worker = .running c →
      c.probing = false → Step s (s.finish c (.report report))
  | read (s : State Id V R) (c : Call Id) (val : V) : s.worker = .running c → c.probing = true →
      Step s (s.finish c (.reading (.ok val)))
  | panic (s : State Id V R) (c : Call Id) : s.worker = .running c →
      Step s (s.finish c (fault c.probing panicked))
  | drop (s : State Id V R) (c : Call Id) (ev : Event V R) : s.worker = .finished c ev →
      Step s { s with busy := false, worker := .reporting c ev }
  | report (s : State Id V R) (c : Call Id) (ev : Event V R) (breaks : Bool) : s.worker = .reporting c ev →
      Step s { s.write c .engine ev breaks with worker := .waiting }
  -- Its enquiry.
  | raise (s : State Id V R) (c : Call Id) (req : V) : s.worker = .running c → c.probing = false →
      Step s { s with
        worker := .asking c ⟨s.parks.next, req, s.chans, .minted, none⟩
        parks := { s.parks with next := s.parks.next + 1 }, chans := s.chans + 1 }
  | register (s : State Id V R) (c : Call Id) (q : Asking V) : s.worker = .asking c q → q.phase = .minted →
      Step s { s.inPhase c q .registered with parks := s.parks.insert q.eid q.rx }
  | ask (s : State Id V R) (c : Call Id) (q : Asking V) (breaks : Bool) : s.worker = .asking c q →
      q.phase = .registered → Step s (s.ask c q breaks)
  | received (s : State Id V R) (c : Call Id) (q : Asking V) (a : Except String V) : s.worker = .asking c q →
      q.phase = .trying ∨ q.phase = .receiving → q.slot = some a →
      Step s (s.resume c q.eid (.answered a))
  | empty (s : State Id V R) (c : Call Id) (q : Asking V) : s.worker = .asking c q → q.phase = .trying →
      q.slot = none → s.senderLives q.eid q.rx = true → Step s (s.inPhase c q .polling)
  /-- What the source calls unreachable. -/
  | orphaned (s : State Id V R) (c : Call Id) (q : Asking V) : s.worker = .asking c q →
      q.phase = .trying ∨ q.phase = .receiving → q.slot = none → s.senderLives q.eid q.rx = false →
      Step s (s.finish c (fault c.probing panicked))
  | standing (s : State Id V R) (c : Call Id) (q : Asking V) : s.worker = .asking c q → q.phase = .polling →
      Step s (s.inPhase c q .receiving)
  | struck (s : State Id V R) (c : Call Id) (q : Asking V) : s.worker = .asking c q → q.phase = .polling →
      Step s (s.inPhase c q (.leaving .stopped))
  | timeout (s : State Id V R) (c : Call Id) (q : Asking V) : s.worker = .asking c q →
      q.phase = .receiving → Step s (s.inPhase c q .trying)
  | leave (s : State Id V R) (c : Call Id) (q : Asking V) (failure : Failure) : s.worker = .asking c q →
      q.phase = .leaving failure →
      Step s ({ s with parks := s.parks.remove q.eid } |>.resume c q.eid (.failed failure))
  -- The children.
  | childSurface (s : State Id V R) (k : Child Id) (val : V) (breaks : Bool) : k ∈ s.children →
      Step s (s.write k.call (.child k.number) (.surface val) breaks)
  | childSpawn (s : State Id V R) (k : Child Id) : k ∈ s.children →
      Step s { s with
        children := ⟨k.call, s.births⟩ :: s.children, births := s.births + 1
        left := if k.number ∈ s.left then s.left ++ [s.births] else s.left }
  | childEnd (s : State Id V R) (k : Child Id) (before after : List (Child Id)) :
      s.children = before ++ k :: after → Step s { s with children := before ++ after }

/-- Any number of steps of any threads, in any order. -/
abbrev Runs : State Id V R → State Id V R → Prop := Relation.ReflTransGen Step

def Reached (s : State Id V R) : Prop := Runs State.start s

end Ral.Serve
