import Ral.Eval.Value
import Ral.Process.Cancel

/-! # Control flow

A break is an error, which `try` catches, or an escape, which it does not. The
first frame with a span the session can resolve claims it.
-/

namespace Ral.Eval

open Ral.Ir Ral.Process

abbrev FrameName := String

structure CallSite where
  script : String
  line : ℕ
  col : ℕ
  deriving DecidableEq

/-- Where a failure was claimed. -/
inductive Prov
  | live (name : FrameName) (span : Span)
  | resolved (name : FrameName) (site : CallSite)
  deriving DecidableEq

structure Err where
  message : String
  hint : Option String
  prov : Option Prov
  abandonedTail : Bool
  discarded : ℕ
  deriving DecidableEq

namespace Err

def new (message : String) : Err := ⟨message, none, none, false, 0⟩

def withHint (hint : String) (e : Err) : Err := { e with hint := some hint }

def appendHint (more : String) (e : Err) : Err :=
  { e with hint := some (match e.hint with
      | some hint => hint ++ "\n\n" ++ more
      | none => more) }

end Err

inductive Escape
  | exit (code : ℕ)
  | stopped (cause : CancelCause) (owner : Option ℕ) (at' : Option Prov)
  deriving DecidableEq

inductive Break
  | error (e : Err)
  | escape (e : Escape)
  deriving DecidableEq

abbrev Settled (α : Type) := Except Break α

namespace Break

def claimedBy (prov : Prov) : Break → Break
  | .error e => .error { e with prov := some (e.prov.getD prov) }
  | .escape (.stopped cause owner at') => .escape (.stopped cause owner (some (at'.getD prov)))
  | .escape (.exit code) => .escape (.exit code)

end Break

/-! ## How a thread's body ended -/

/-- How a thread's body, or a run, ended. -/
inductive End
  | ok (v : Value)
  | err (e : Err)
  | exited (code : ℕ)
  | stopped (cause : CancelCause) (owner : Option ℕ) (at' : Option Prov)
  | panic (text : String)

namespace End

def settled : Settled Value → End
  | .ok v => .ok v
  | .error (.error e) => .err e
  | .error (.escape (.exit code)) => .exited code
  | .error (.escape (.stopped cause owner at')) => .stopped cause owner at'

/-- Back into the machine's currency; a panic is resumed. -/
def intoSettled : End → Except String (Settled Value)
  | ok v => .ok (.ok v)
  | err e => .ok (.error (.error e))
  | exited code => .ok (.error (.escape (.exit code)))
  | stopped cause owner at' => .ok (.error (.escape (.stopped cause owner at')))
  | panic text => .error text

end End

end Ral.Eval
