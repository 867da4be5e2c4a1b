import Ral.Worker.Registry
import Ral.Worker.Settling

/-! # A brood under its owner

Enrolments and the owner's calls race on one lock, which a sweep has from its first sample to
its last. Handles are claimed and stopped with that lock released, each under its own.
-/

namespace Ral.Worker

namespace Handle

def struck (h : Handle) : Handle :=
  { h.enter .stopping with holder := .free, claims := h.claims ++ [.stopped] }

/-- Claimed, and its node struck unless it had ended. -/
def Stopped (h : Handle) : Prop :=
  h.state.phase = .consumed ∨ (h.state.phase = .stopping ∧ h.cancelled = true)

end Handle

/-- A birth-ordered list of handles that forgets consumed ones. -/
structure Compacting where
  items : List ℕ
  sweepAt : ℕ

namespace Compacting

def default : Compacting := ⟨[], minSweepAt⟩

/-- Without the entry at the cursor, if its one sample was of a consumed handle. -/
def observe (cursor : ℕ) (p : Phase) (c : Compacting) : Compacting :=
  if p = .consumed then { c with items := c.items.eraseIdx cursor } else c

def swept (c : Compacting) : Compacting := { c with sweepAt := max (c.items.length * 2) minSweepAt }

def append (i : ℕ) (c : Compacting) : Compacting := { c with items := c.items ++ [i] }

end Compacting

inductive MembershipState
  | «open»
  | closed
  deriving DecidableEq

/-- The owner's calls. -/
inductive Call
  | close
  | stop
  | «end»
  | drop

/-- What a sweep comes before. -/
inductive Sweep
  | push (i : ℕ)
  | close (c : Call)

/-- A snapshot of the retained children, beside the phase of every handle as it was taken. -/
structure Stop where
  kids : List ℕ
  phases : ℕ → Phase

/-- On whose account handles are claimed and stopped. -/
inductive Claimant
  | refused (i : ℕ)
  | owner (c : Call) (s : Stop)

/-- Where a thread is in its call. -/
inductive Task
  | idle
  | enrol (i : ℕ)
  | close (c : Call)
  | children (c : Call)
  | sweep (why : Sweep) (cursor : ℕ)
  | claim (who : Claimant) (left : List ℕ)
  | strike (who : Claimant) (i : ℕ) (left : List ℕ)
  | drain
  | wait (kids : List ℕ)

def Call.after : Call → Task
  | .close => .idle
  | c => .children c

structure World where
  handle : ℕ → Handle
  state : MembershipState
  children : Compacting
  lock : Option ℕ
  task : ℕ → Task
  enrolled : List ℕ
  refused : List ℕ
  stops : List Stop

namespace World

/-- Untitled or titled, every handle starts out running and every thread idle. -/
def new (title : ℕ → String) : World :=
  ⟨fun i => .fresh (title i), .open, .default, none, fun _ => .idle, [], [], []⟩

def goes (t : ℕ) (task : Task) (w : World) : World := { w with task := Function.update w.task t task }

def put (i : ℕ) (h : Handle) (w : World) : World := { w with handle := Function.update w.handle i h }

def push (i : ℕ) (w : World) : World :=
  { w with children := w.children.append i, enrolled := w.enrolled ++ [i] }

/-- Enrolment under the lock, while membership is open. -/
def takeIn (t i : ℕ) (w : World) : World :=
  if w.children.sweepAt ≤ w.children.items.length then { w with lock := some t }.goes t (.sweep (.push i) 0)
  else (w.push i).goes t .idle

def close (t : ℕ) (c : Call) (w : World) : World :=
  match w.state with
  | .open => { w with state := .closed, lock := some t }.goes t (.sweep (.close c) 0)
  | .closed => w.goes t c.after

def sample (t : ℕ) (why : Sweep) (cursor : ℕ) (p : Phase) (w : World) : World :=
  { w with children := w.children.observe cursor p }.goes t
    (.sweep why (if p = Phase.consumed then cursor else cursor + 1))

def sweep (t : ℕ) (why : Sweep) (w : World) : World :=
  let w := { w with children := w.children.swept, lock := none }
  match why with
  | .push i => (w.push i).goes t .idle
  | .close c => w.goes t c.after

def snapshot (t : ℕ) (c : Call) (w : World) : World :=
  w.goes t (.claim (.owner c ⟨w.children.items, fun i => (w.handle i).state.phase⟩) w.children.items)

def claim (t : ℕ) (who : Claimant) (i : ℕ) (left : List ℕ) (w : World) : World :=
  match (w.handle i).state with
  | .running => (w.put i (w.handle i).claimAndStop).goes t (.strike who i left)
  | _ => (w.put i (w.handle i).claimAndStop).goes t (.claim who left)

def strike (t : ℕ) (who : Claimant) (i : ℕ) (left : List ℕ) (w : World) : World :=
  (w.put i (w.handle i).struck).goes t (.claim who left)

def through (t : ℕ) (who : Claimant) (w : World) : World :=
  match who with
  | .refused i => { w with refused := w.refused ++ [i] }.goes t .idle
  | .owner .end s => { w with stops := w.stops ++ [s] }.goes t .drain
  | .owner _ s => { w with stops := w.stops ++ [s] }.goes t .idle

def Strikes (w : World) (i : ℕ) : Prop := ∃ t who left, w.task t = .strike who i left

inductive Step : World → World → Prop
  | handle (w : World) (i : ℕ) (h : Handle) : Handle.Step (w.handle i) h →
      (w.Strikes i → h.holder = (w.handle i).holder) → Step w (w.put i h)
  | enrol (w : World) (t i : ℕ) : w.task t = .idle → Step w (w.goes t (.enrol i))
  | call (w : World) (t : ℕ) (c : Call) : w.task t = .idle → Step w (w.goes t (.close c))
  | takeIn (w : World) (t i : ℕ) : w.task t = .enrol i → w.lock = none → w.state = .open → Step w (w.takeIn t i)
  | refuse (w : World) (t i : ℕ) : w.task t = .enrol i → w.lock = none → w.state = .closed →
      Step w (w.goes t (.claim (.refused i) [i]))
  | close (w : World) (t : ℕ) (c : Call) : w.task t = .close c → w.lock = none → Step w (w.close t c)
  | sample (w : World) (t : ℕ) (why : Sweep) (cursor i : ℕ) (p : Phase) : w.task t = .sweep why cursor →
      w.children.items[cursor]? = some i → Handle.Sample (w.handle i) p → Step w (w.sample t why cursor p)
  | sweep (w : World) (t : ℕ) (why : Sweep) (cursor : ℕ) : w.task t = .sweep why cursor →
      w.children.items[cursor]? = none → Step w (w.sweep t why)
  | children (w : World) (t : ℕ) (c : Call) : w.task t = .children c → w.lock = none → Step w (w.snapshot t c)
  | claim (w : World) (t : ℕ) (who : Claimant) (i : ℕ) (left : List ℕ) : w.task t = .claim who (i :: left) →
      (w.handle i).holder = .free → Step w (w.claim t who i left)
  | strike (w : World) (t : ℕ) (who : Claimant) (i : ℕ) (left : List ℕ) : w.task t = .strike who i left →
      Step w (w.strike t who i left)
  | through (w : World) (t : ℕ) (who : Claimant) : w.task t = .claim who [] → Step w (w.through t who)
  | drain (w : World) (t : ℕ) : w.task t = .drain → w.lock = none → Step w (w.goes t (.wait w.children.items))
  | waited (w : World) (t : ℕ) (kids : List ℕ) : w.task t = .wait kids → Step w (w.goes t .idle)

abbrev Runs : World → World → Prop := Relation.ReflTransGen Step

end World

end Ral.Worker
