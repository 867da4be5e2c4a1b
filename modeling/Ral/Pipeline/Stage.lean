import Ral.Eval.Flow
import Ral.Process.Cancel

/-! # The stages of a pipeline

The collector's handle onto one running stage, the terminal news a stage leaves, and
its settlement once the collector folds. A stage's facts are of any type.
-/

namespace Ral.Pipeline

open Ral.Eval Ral.Process

/-- What the settlement of an external asks of the rest of the shell. -/
class Accounts (Fact : Type) where
  fromCommandFailure : String → CommandFailure → Err
  externalStage : Prov → String → List String → Option Break → Fact

/-- A stage's observation, the same for a child and for a thread. -/
structure StageObservation (Fact : Type) where
  ending : End
  audit : List Fact

namespace StageObservation

variable {Fact : Type}

def failure (message : String) : StageObservation Fact := ⟨.err (.new message), []⟩

def names (obs : StageObservation Fact) (stage : ℕ) : Bool :=
  match obs.ending with
  | .stopped _ owner _ => owner = some stage
  | _ => false

def tearsDownFor (obs : StageObservation Fact) (stage : ℕ) : Option CancelCause :=
  match obs.ending with
  | .exited _ => some .cancelled
  | .stopped cause _ _ => if obs.names stage then none else some cause
  | _ => none

def panicked (obs : StageObservation Fact) : Bool :=
  match obs.ending with
  | .panic _ => true
  | _ => false

def forgiven (obs : StageObservation Fact) : StageObservation Fact := { obs with ending := .ok .unit }

end StageObservation

/-! ## Handles -/

/-- A direct external, whose outcome the reaper posts. -/
structure ExternalStage where
  prov : Prov
  name : String
  args : List String
  envelope : Option ℕ

/-- A stage on its own thread, under a node of its own. -/
structure ThreadStage where
  id : ℕ

inductive StageKind
  | external (e : ExternalStage)
  | thread (t : ThreadStage)

structure StageHandle where
  kind : StageKind
  sent : Option CancelCause

/-- One stage's terminal news. -/
inductive StageEnd (Fact : Type)
  | thread (obs : StageObservation Fact) (stage : ℕ)
  | external (e : ExternalStage) (outcome : WaitOutcome) (sent : Option CancelCause)

namespace StageHandle

variable {Fact : Type}

def new (kind : StageKind) : StageHandle := ⟨kind, none⟩

/-- Records the cause; a thread is told by the write on its node, an external by the
signal sent next. -/
def cancel (cause : CancelCause) (h : StageHandle) : StageHandle :=
  { h with sent := CancelCause.max h.sent (some cause) }

/-- A reader-gone cancel, which an external can only hear as the kill. -/
def cut (h : StageHandle) : StageHandle := h.cancel .readerGone

def isThread (h : StageHandle) : Bool :=
  match h.kind with
  | .thread _ => true
  | .external _ => false

/-- An error is the text of a panic. -/
def fileExternalEnd (outcome : WaitOutcome) (h : StageHandle) : Except String (StageEnd Fact) :=
  match h.kind with
  | .external e => .ok (.external e (outcome.envelope e.envelope.isSome) h.sent)
  | .thread _ => .error "Event::Ended named a stage that was not spawned as an external"

def fileThreadEnd (obs : StageObservation Fact) (h : StageHandle) : Except String (StageEnd Fact) :=
  match h.kind with
  | .thread t => .ok (.thread obs t.id)
  | .external _ => .error "Event::Returned named a stage that was not a thread stage"

end StageHandle

/-! ## Settlement -/

/-- What one settlement reads of a scope others may strike meanwhile, and of the
kernel's log. -/
structure Looks where
  cause : Option CancelCause
  join : Option (CancelCause × ℕ)
  denial : Option String

def cancelledUnder (cause : CancelCause) (join : Option (CancelCause × ℕ)) : Break :=
  match join with
  | some (joined, owner) => .escape (.stopped joined (some owner) none)
  | none => .escape (.stopped cause none none)

section Settle

variable (Fact : Type) [accounts : Accounts Fact]

def ofChild (cmd : String) (end' : ChildEnd) (join : Option (CancelCause × ℕ)) : Break :=
  match end' with
  | .failed failure => .error (accounts.fromCommandFailure cmd failure)
  | .cancelled cause => cancelledUnder cause join

def augmentStageFailure (err : Err) (denial : Option String) : Err :=
  match denial with
  | some hint => err.appendHint hint
  | none => err

def externalBreak (e : ExternalStage) (outcome : WaitOutcome) (sent : Option CancelCause) (looks : Looks) :
    Option Break :=
  let cause := CancelCause.max sent (looks.cause.filter (· ≠ .readerGone))
  match outcome.classify cause with
  | some (.cancelled c) =>
    if sent = some c then none
    else some ((ofChild Fact e.name (.cancelled c) looks.join).claimedBy e.prov)
  | some end' => some ((ofChild Fact e.name end' looks.join).claimedBy e.prov)
  | none => none

variable {Fact}

def finishExternalSettlement (e : ExternalStage) (outcome : WaitOutcome) (sent : Option CancelCause)
    (looks : Looks) : StageObservation Fact :=
  let broke := externalBreak Fact e outcome sent looks
  { ending := match broke with
      | some (.error err) => .settled (.error (.error (augmentStageFailure err looks.denial)))
      | some stop => .settled (.error stop)
      | none => .settled (.ok .unit)
    audit := [accounts.externalStage e.prov e.name e.args broke] }

/-- A thread's stop naming its own stage is forgiven; an external is settled under the
cause sent to it or the one in force, whichever is stronger. -/
def StageEnd.settle (looks : Looks) : StageEnd Fact → StageObservation Fact
  | .thread obs stage => if obs.names stage then obs.forgiven else obs
  | .external e outcome sent => finishExternalSettlement e outcome sent looks

end Settle

end Ral.Pipeline
