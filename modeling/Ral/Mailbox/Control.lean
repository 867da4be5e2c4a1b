import Mathlib.Data.String.Basic
import Ral.Core.Fallible
import Ral.Data.FOValue
import Ral.Data.SortedMap
import Ral.Record.Log
import Ral.Session.Protocol

/-! # Control records and their folds

An agent's own state: the mail with the obligations derived from it, the booked wakeups,
and the model in force. Each is a fold of the log's control records.
-/

namespace Ral.Mailbox
open Ral.Data Ral.Session Ral.Record

abbrev AgentId : Type := ℕ

abbrev PostId : Type := ℕ

abbrev JobId : Type := ℕ

/-! ## Records -/

structure Post where
  /-- `none` is a command, never a prompt. -/
  voice : Option Voice
  text : String
  from' : Option AgentId
deriving DecidableEq

structure Schedule where
  prompt : String
  trigger : String
  cron : Option String
  nextUnixMs : ℕ
  fires : ℕ
deriving DecidableEq

/-- How a returning agent answered. -/
inductive ChildStatus
  | replied (value : FOValue)
  | failed (reason : String)
  | stopped

/-- A model as it was picked, with its listed window. -/
structure Selected where
  model : String
  contextWindow : Option ℕ
deriving DecidableEq

structure Started where
  /-- `none` for every root. -/
  parent : Option AgentId
  returns : Bool
  selected : Selected

inductive Control
  | sessionStarted (started : Started)
  | sessionResumed (selected : Selected) (returns : Bool)
  | jobOpened
  | jobSettled (job : JobId) (stopped : Bool)
  | status (status : ChildStatus)
  | posted (post : Post)
  /-- Each became a prompt or a command, and keeps its debt until a `status`. -/
  | taken (posts : NonEmpty PostId)
  | withdrawn (posts : NonEmpty PostId)
  | scheduled (label : String) (schedule : Schedule)
  | unscheduled (label : String)
  | modelChanged (selected : Selected)
  | windowNarrowed (model : String) (contextWindow : ℕ)

/-- What a fold has against a record. -/
inductive Misfit
  /-- `SessionStarted` is only the head of a log. -/
  | head
  /-- `JobOpened` needs no open job and a fresh commit number. -/
  | opened
  | settled (job : JobId) (openJob : Option JobId)
  | named
  | notPending (post : PostId)
  | unbooked (label : String)
  | widens (model : String) (limit : ℕ) (inForce : String) (window : Option ℕ)
deriving DecidableEq

/-! ## Mail -/

structure Mail where
  parent : Option AgentId
  returns : Bool
  pending : SortedMap PostId Post
  answering : Bool
  status : Option ChildStatus
  job : Option JobId
  named : ℕ

namespace Mail

def new (started : Started) : Mail where
  parent := started.parent
  returns := started.returns
  pending := SortedMap.empty
  answering := false
  status := none
  job := none
  named := 0

def post (m : Mail) (id : PostId) : Option Post := m.pending.get id

def byParent (m : Mail) (post : Post) : Bool :=
  match m.parent with
  | some parent => post.from' = some parent
  | none => post.voice = some .human && post.from'.isNone

def owes (m : Mail) : Bool :=
  m.returns && (m.answering || m.pending.entries.any fun e => m.byParent e.2)

def removeOne (taken : Bool) (m : Mail) (id : PostId) : Except Misfit Mail :=
  match m.pending.get id with
  | none => .error (.notPending id)
  | some post =>
    .ok { m with
      pending := m.pending.erase id
      answering := m.answering || (taken && m.returns && m.byParent post) }

def remove (m : Mail) (posts : NonEmpty PostId) (taken : Bool) : Except Misfit Mail :=
  posts.toList.foldlM (removeOne taken) m

def step (m : Mail) (commit : ℕ) : Control → Except Misfit Mail
  | .sessionResumed _ returns => .ok { m with returns, answering := m.answering && returns }
  | .jobOpened =>
    if m.job.isSome || commit ≤ m.named then .error .opened
    else .ok { m with job := some commit, named := commit }
  | .jobSettled job _ =>
    if m.job ≠ some job then .error (.settled job m.job) else .ok { m with job := none }
  | .status status => .ok { m with status := some status, answering := false }
  | .posted post =>
    if commit ≤ m.named then .error .named
    else .ok { m with pending := m.pending.insert commit post, named := commit }
  | .taken posts => m.remove posts true
  | .withdrawn posts => m.remove posts false
  | .sessionStarted _ | .scheduled _ _ | .unscheduled _ | .modelChanged _ | .windowNarrowed _ _ => .ok m

end Mail

/-! ## Schedules -/

/-- Booked wakeups, by label. -/
abbrev Schedules : Type := SortedMap String Schedule

namespace Schedules

def step (s : Schedules) : Control → Except Misfit Schedules
  | .scheduled label schedule => .ok (s.insert label schedule)
  | .unscheduled label =>
    match s.get label with
    | none => .error (.unbooked label)
    | some _ => .ok (s.erase label)
  | _ => .ok s

end Schedules

/-! ## The model in force -/

structure Model where
  selected : Selected
  narrowed : Option ℕ
deriving DecidableEq

namespace Model

def new (selected : Selected) : Model := ⟨selected, none⟩

def name (m : Model) : String := m.selected.model

def window (m : Model) : Option ℕ :=
  match m.selected.contextWindow, m.narrowed with
  | some listed, some narrowed => some (min listed narrowed)
  | listed, narrowed => listed.or narrowed

def narrows (m : Model) (model : String) (limit : ℕ) : Bool :=
  model = m.name && (m.window.all fun window => limit < window)

def step (m : Model) : Control → Except Misfit Model
  | .sessionResumed selected _ =>
    .ok ⟨selected, if m.name ≠ selected.model then none else m.narrowed⟩
  | .modelChanged selected => .ok (new selected)
  | .windowNarrowed model contextWindow =>
    if m.narrows model contextWindow then .ok { m with narrowed := some contextWindow }
    else .error (.widens model contextWindow m.name m.window)
  | _ => .ok m

end Model

/-! ## The folds together -/

structure Folds where
  mail : Mail
  schedules : Schedules
  model : Model

namespace Folds

def seed (started : Started) : Folds :=
  ⟨Mail.new started, SortedMap.empty, Model.new started.selected⟩

def step (f : Folds) (commit : ℕ) : Control → Except Misfit Folds
  | .sessionStarted _ => .error .head
  | control => do
      let mail ← f.mail.step commit control
      let schedules ← f.schedules.step control
      let model ← f.model.step control
      .ok ⟨mail, schedules, model⟩

def stepLine (f : Folds) (commit : ℕ) (line : List Control) : Except Misfit Folds :=
  line.foldlM (fun f control => f.step commit control) f

def replay (f : Folds) (records : List (ℕ × Control)) : Except Misfit Folds :=
  records.foldlM (fun f record => f.step record.1 record.2) f

theorem replay_append {f : Folds} {xs ys : List (ℕ × Control)} :
    f.replay (xs ++ ys) = (f.replay xs).bind fun g => g.replay ys := by
  unfold replay
  rw [List.foldlM_append]
  rfl

theorem replay_line (f : Folds) (commit : ℕ) (line : List Control) :
    f.replay (line.map (commit, ·)) = f.stepLine commit line := by
  unfold replay stepLine
  rw [List.foldlM_map]

end Folds

end Ral.Mailbox
