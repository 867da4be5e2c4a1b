import Mathlib.Data.List.Forall2
import Mathlib.Logic.Relation
import Ral.Pipeline.Verdict

/-! # Collecting a pipeline

Every lifecycle edge arrives as one event on one channel. `CollectState.step` is pure
over them; the machine runs its effects, the loops that wait for events, and the fold.
Producers post at any time, and a scope or a clock shows whatever it shows.
-/

namespace Ral.Pipeline

open Ral.Eval Ral.Process

/-- Every lifecycle edge, from whichever producer sees it first. -/
inductive Event (Fact : Type)
  | ended (ix : ℕ) (outcome : WaitOutcome)
  | returned (ix : ℕ) (obs : StageObservation Fact)
  /-- The sentinel heard a write past what the edge owed its departed reader. -/
  | wrote (ix : ℕ)
  /-- A cause on the scope stronger than the teardown so far; no producer's. -/
  | cancelled (cause : CancelCause)
  | anchorDied
  | heard (signal : Signal)

inductive Effect
  | killStage (ix : ℕ)
  | cancelAll (cause : CancelCause)

/-- The terminal lent to the group. -/
structure TerminalLoan where
  pressed : Option CancelCause

def TerminalLoan.hear (signal : Signal) (loan : TerminalLoan) : TerminalLoan :=
  match CancelCause.gesture signal with
  | some key => ⟨CancelCause.max loan.pressed (some key)⟩
  | none => loan

/-- Every stage still running or already observed. -/
structure CollectState (Fact : Type) where
  stages : List (Option StageHandle)
  observed : List (Option (StageEnd Fact))
  loan : Option TerminalLoan
  teardown : Option CancelCause

namespace CollectState

variable {Fact : Type}

def new (loan : Option TerminalLoan) : CollectState Fact := ⟨[], [], loan, none⟩

def push (kind : StageKind) (c : CollectState Fact) : CollectState Fact :=
  { c with stages := c.stages ++ [some (.new kind)], observed := c.observed ++ [none] }

def launch (launched : List StageKind) (loan : Option TerminalLoan) : CollectState Fact :=
  launched.foldl (fun c kind => c.push kind) (.new loan)

def live (c : CollectState Fact) : Bool := c.stages.any Option.isSome

def threadsLive (c : CollectState Fact) : Bool := c.stages.any (Option.any StageHandle.isThread)

/-- Inert with no terminal lent. -/
def hear (signal : Signal) (c : CollectState Fact) : CollectState Fact :=
  { c with loan := c.loan.map (TerminalLoan.hear signal) }

def hearOut (queue : List (Event Fact)) (c : CollectState Fact) : CollectState Fact :=
  queue.foldl (fun c ev => match ev with
    | .heard signal => c.hear signal
    | _ => c) c

/-- Files one stage's own terminal event; an error is the text of a panic. -/
def file (ix : ℕ) (ending : StageHandle → Except String (StageEnd Fact)) (c : CollectState Fact) :
    Except String (CollectState Fact) :=
  match c.stages[ix]? with
  | none => .error "index out of bounds"
  | some none => .error "a stage's own end arrives once, for a live stage"
  | some (some handle) =>
    match ending handle with
    | .error text => .error text
    | .ok e => .ok { c with stages := c.stages.set ix none, observed := c.observed.set ix (some e) }

def step (c : CollectState Fact) : Event Fact → Except String (CollectState Fact × Option Effect)
  | .ended ix outcome => (c.file ix (·.fileExternalEnd outcome)).map fun c => (c, none)
  | .returned ix obs =>
    match c.file ix (·.fileThreadEnd obs) with
    | .error text => .error text
    | .ok c =>
      match c.observed[ix]? with
      | some (some (.thread obs stage)) =>
        .ok (c, if obs.panicked then some (.cancelAll .aborted)
          else (obs.tearsDownFor stage).map .cancelAll)
      | _ => .error "a thread stage's end was just filed"
  | .wrote ix =>
    match c.stages[ix]? with
    | none => .error "index out of bounds"
    | some stage => .ok (c, if stage.isSome then some (.killStage ix) else none)
  | .cancelled cause => .ok (c, some (.cancelAll cause))
  | .anchorDied => .ok (c, if c.teardown.isNone then some (.cancelAll .terminated) else none)
  | .heard signal => .ok (c.hear signal, none)

def killStage (ix : ℕ) (c : CollectState Fact) : CollectState Fact :=
  { c with stages := c.stages.modify ix (Option.map StageHandle.cut) }

/-- Raises the teardown and writes it on every live stage; `none` if already covered. -/
def escalate (cause : CancelCause) (c : CollectState Fact) : Option (CollectState Fact) :=
  if CancelCause.level c.teardown ≥ cause.asU8 then none
  else some { c with
    teardown := some cause
    stages := c.stages.map (Option.map (StageHandle.cancel cause)) }

end CollectState

/-! ## The loops -/

/-- The waits of a teardown: out the grace, for shielded threads, for the killed. -/
inductive Wait
  | grace
  | threads
  | drain

inductive Phase (Fact : Type)
  | launched
  | driving
  | waiting (w : Wait)
  | joining
  | folding (rest : List (Option (StageEnd Fact))) (tally : Tally)
  | ended (outcome : Except String (Settled Value))
  | panicked (text : String)

namespace Wait

variable {Fact : Type}

def bounded : Wait → Bool
  | grace => true
  | threads => true
  | drain => false

def goesOn (c : CollectState Fact) (w : Wait) : Bool :=
  (match w with
    | grace => c.live
    | threads => c.threadsLive
    | drain => c.live) && !(w.bounded && c.teardown = some .aborted)

end Wait

namespace CollectState

variable {Fact : Type}

/-- A live thread may be in a shielded cleanup; no shield masks `Aborted`. -/
def afterGrace (c : CollectState Fact) : Phase Fact :=
  if CancelCause.level c.teardown < CancelCause.aborted.asU8 then .waiting .threads else .waiting .drain

def cancelAll (cause : CancelCause) (c : CollectState Fact) : CollectState Fact × Phase Fact :=
  match c.escalate cause with
  | none => (c, .driving)
  | some c => (c, if cause.graceSignal.isSome then .waiting .grace else c.afterGrace)

/-- Ends what a launch that failed part-way started. -/
def rollBack (inForce : Option CancelCause) (c : CollectState Fact) : CollectState Fact × Phase Fact :=
  if c.live then c.cancelAll (inForce.getD .cancelled) else (c, .driving)

/-- One event, or none at a deadline or with every producer gone; a live stage's handle
holds a sender. -/
inductive Recv (bounded : Bool) (c : CollectState Fact) (queue : List (Event Fact)) :
    Option (Event Fact) → List (Event Fact) → Prop
  | expired (deadline : bounded = true) : Recv bounded c queue none queue
  | cancelled (cause : CancelCause) (above : CancelCause.level c.teardown < cause.asU8) :
      Recv bounded c queue (some (.cancelled cause)) queue
  | next (ev : Event Fact) (rest : List (Event Fact)) (head : queue = ev :: rest) :
      Recv bounded c queue (some ev) rest
  | disconnected (gone : c.live = false) : Recv bounded c queue none queue

end CollectState

/-- What follows a wait: the kill comes before the last one, the loop after it. -/
def Wait.next {Fact : Type} (c : CollectState Fact) : Wait → Phase Fact
  | grace => c.afterGrace
  | threads => .waiting .drain
  | drain => .driving

/-- The stage whose own end an event is. -/
def Event.files {Fact : Type} : Event Fact → Option ℕ
  | .ended ix _ => some ix
  | .returned ix _ => some ix
  | _ => none

/-! ## The machine -/

/-- The collector with its channel. `filed` is a history: the stages filed so far. -/
structure Machine (Fact : Type) where
  collect : CollectState Fact
  phase : Phase Fact
  queue : List (Event Fact)
  unposted : List ℕ
  filed : List ℕ
  published : List (Bool × Fact)

namespace Machine

variable {Fact : Type}

def start (launched : List StageKind) (loan : Option TerminalLoan) : Machine Fact where
  collect := .launch launched loan
  phase := .launched
  queue := []
  unposted := List.range launched.length
  filed := []
  published := []

def post (ev : Event Fact) (m : Machine Fact) : Machine Fact := { m with queue := m.queue ++ [ev] }

def driven (ev : Event Fact) (rest : List (Event Fact)) (m : Machine Fact) : Machine Fact :=
  match m.collect.step ev with
  | .error text => { m with queue := rest, phase := .panicked text }
  | .ok (c, effect) =>
    let m := { m with queue := rest, filed := m.filed ++ ev.files.toList }
    match effect with
    | none => { m with collect := c }
    | some (.killStage ix) => { m with collect := c.killStage ix }
    | some (.cancelAll cause) =>
      { m with collect := (c.cancelAll cause).1, phase := (c.cancelAll cause).2 }

/-- One turn of a teardown's wait, which discards every effect but an escalation. -/
def drained (ev : Event Fact) (rest : List (Event Fact)) (m : Machine Fact) : Machine Fact :=
  match m.collect.step ev with
  | .error text => { m with queue := rest, phase := .panicked text }
  | .ok (c, effect) =>
    let m := { m with queue := rest, filed := m.filed ++ ev.files.toList }
    match effect with
    | some (.cancelAll cause) => { m with collect := (c.escalate cause).getD c }
    | _ => { m with collect := c }

section Fold

variable [Accounts Fact]

/-- A stage nobody reported is a failure, not an absence. -/
def settlement (looks : Looks) : Option (StageEnd Fact) → StageObservation Fact
  | some e => e.settle looks
  | none => .failure "ral pipeline stage vanished without reporting"

def surfaced : Option (StageEnd Fact) → Bool
  | some (.external _ _ _) => true
  | _ => false

inductive Step (launched : List StageKind) : Machine Fact → Machine Fact → Prop
  | postEnded (m : Machine Fact) (ix : ℕ) (e : ExternalStage) (outcome : WaitOutcome)
      (kind : launched[ix]? = some (.external e)) (owed : ix ∈ m.unposted) :
      Step launched m { m.post (.ended ix outcome) with unposted := m.unposted.erase ix }
  | postReturned (m : Machine Fact) (ix : ℕ) (t : ThreadStage) (obs : StageObservation Fact)
      (kind : launched[ix]? = some (.thread t)) (owed : ix ∈ m.unposted) :
      Step launched m { m.post (.returned ix obs) with unposted := m.unposted.erase ix }
  | postWrote (m : Machine Fact) (ix : ℕ) (edge : ix < launched.length) :
      Step launched m (m.post (.wrote ix))
  | postAnchorDied (m : Machine Fact) : Step launched m (m.post .anchorDied)
  | postHeard (m : Machine Fact) (signal : Signal) : Step launched m (m.post (.heard signal))
  | join (m : Machine Fact) (stands : m.phase = .launched) :
      Step launched m { m with phase := .driving }
  | rollBack (m : Machine Fact) (inForce : Option CancelCause) (stands : m.phase = .launched) :
      Step launched m { m with
        collect := (m.collect.rollBack inForce).1
        phase := (m.collect.rollBack inForce).2 }
  | drive (m : Machine Fact) (ev : Event Fact) (rest : List (Event Fact)) (stands : m.phase = .driving)
      (live : m.collect.live) (got : m.collect.Recv false m.queue (some ev) rest) :
      Step launched m (m.driven ev rest)
  | driveOver (m : Machine Fact) (stands : m.phase = .driving)
      (over' : m.collect.live = false ∨ m.collect.Recv false m.queue none m.queue) :
      Step launched m { m with phase := .joining }
  | wait (m : Machine Fact) (w : Wait) (ev : Event Fact) (rest : List (Event Fact))
      (stands : m.phase = .waiting w) (more : w.goesOn m.collect)
      (got : m.collect.Recv w.bounded m.queue (some ev) rest) : Step launched m (m.drained ev rest)
  | waitOver (m : Machine Fact) (w : Wait) (stands : m.phase = .waiting w)
      (over' : w.goesOn m.collect = false ∨ m.collect.Recv w.bounded m.queue none m.queue) :
      Step launched m { m with phase := w.next m.collect }
  | fold (m : Machine Fact) (stands : m.phase = .joining) :
      Step launched m { m with
        collect := m.collect.hearOut m.queue
        queue := []
        phase := .folding m.collect.observed .empty }
  | settle (m : Machine Fact) (looks : Looks) (e : Option (StageEnd Fact))
      (rest : List (Option (StageEnd Fact))) (tally : Tally) (stands : m.phase = .folding (e :: rest) tally) :
      Step launched m { m with
        phase := .folding rest (tally.take (settlement looks e).ending)
        published := m.published ++ (settlement looks e).audit.map fun fact => (surfaced e, fact) }
  | conclude (m : Machine Fact) (inForce : Option (CancelCause × ℕ)) (tally : Tally)
      (stands : m.phase = .folding [] tally) :
      Step launched m { m with phase := .ended (tally.conclude m.collect.teardown inForce) }

abbrev Steps (launched : List StageKind) : Machine Fact → Machine Fact → Prop :=
  Relation.ReflTransGen (Step launched)

end Fold

end Machine

end Ral.Pipeline
