import Ral.Core.Run
import Ral.Mailbox.Control

/-! # The agent's cell

Recorded facts and their pending payloads under one lock: the transactions of posters and
of the owner, each with what the device answers to its append and its sync.
-/

namespace Ral.Mailbox
open Ral.Data Ral.Session Ral.Record

/-- Monotonic and never reused. -/
abbrev ScheduleId : Type := ℕ

/-! ## Payloads -/

inductive Memory
  | amnemon
  | mnemon

inductive Read
  | hatch (memory : Memory) (name : Option String)
  | context
  | resources

inductive Rewrite
  | clear
  | evict
  | rewind (turn : ℕ)
  | close

/-- The model a `/model` names. -/
structure Pick where
  model : String

inductive Command
  | read (read : Read)
  | rewrite (rewrite : Rewrite)
  | model (pick : Pick)

structure AgentMessage where
  from' : AgentId
  fromName : String
  text : String

inductive Input
  | human (text : String)
  | task (message : AgentMessage)
  | message (message : AgentMessage)
  | child (id : AgentId) (name : String) (status : ChildStatus) (elapsed : ℕ)
  | wakeup (id : ScheduleId) (text : String)
  | surface (generation : ℕ) (values : List FOValue)

inductive Queued
  | input (input : Input)
  | command (command : Command)

/-- What the queue holds: posts, and notices of departure, which are not posts. -/
inductive Item
  | posted (id : PostId) (queued : Queued)
  | gone (id : AgentId)

inductive Drained
  | input (input : Input)
  | gone (id : AgentId)
  | read (read : Read)
  | model (pick : Pick)

/-- The words of the cards: a duration, and an errand that finished. -/
class Wording where
  elapsedPhrase : ℕ → String
  surfaceNotice : List FOValue → String

def Read.toText : Read → String
  | .hatch memory name =>
    let word := match memory with
      | .amnemon => "/new"
      | .mnemon => "/branch"
    word ++ (name.map (" " ++ ·)).getD ""
  | .context => "/context"
  | .resources => "/resources"

def Rewrite.toText : Rewrite → String
  | .clear => "/clear"
  | .evict => "/evict"
  | .rewind turn => "/rewind " ++ toString turn
  | .close => "/close"

def Command.toText : Command → String
  | .read r => r.toText
  | .rewrite r => r.toText
  | .model pick => "/model " ++ pick.model

def AgentMessage.render (m : AgentMessage) : String :=
  "[EXARCH AGENT " ++ toString m.from' ++ " MESSAGE: " ++ m.fromName ++ "]\n" ++ m.text ++ "\n[/EXARCH]"

def notice [Wording] (name : String) (status : ChildStatus) (elapsed : ℕ) : String :=
  let took := Wording.elapsedPhrase elapsed
  match status with
  | .replied _ => "[agent '" ++ name ++ "' replied after " ++ took ++ ": run `` exarch-agents `read '"
      ++ name ++ "' `` to read it]"
  | .failed reason => "[agent '" ++ name ++ "' failed after " ++ took ++ ": " ++ reason ++ "]"
  | .stopped => "[agent '" ++ name ++ "' stopped after " ++ took ++ ": message it to continue]"

namespace Queued

def posted [Wording] : Queued → Post
  | .input (.human text) => ⟨some .human, text, none⟩
  | .input (.task message) => ⟨some .peer, message.text, some message.from'⟩
  | .input (.message message) => ⟨some .peer, message.render, some message.from'⟩
  | .input (.child id name status elapsed) => ⟨some .harness, notice name status elapsed, some id⟩
  | .input (.wakeup _ text) => ⟨some .wakeup, text, none⟩
  | .input (.surface _ values) => ⟨some .harness, Wording.surfaceNotice values, none⟩
  | .command c => ⟨none, c.toText, none⟩

def isHuman : Queued → Bool
  | .input (.human _) => true
  | _ => false

def isWakeup : Queued → Bool
  | .input (.wakeup _ _) => true
  | _ => false

def clears : Queued → Bool
  | .input (.child ..) | .input (.wakeup ..) | .input (.surface ..) => true
  | _ => false

def isRewrite : Queued → Bool
  | .command (.rewrite _) => true
  | _ => false

end Queued

/-! ## Runs of human posts -/

/-- How an item stands to a run: an aside neither joins nor breaks one. -/
inductive Part (T H : Type)
  | human (h : H)
  | post (t : T)
  | aside (t : T)

/-- A run of human posts, or one other item. -/
inductive Group (T H : Type)
  | run (posts : NonEmpty H)
  | one (t : T)

section Runs
variable {T H : Type}

/-- The run that is open, followed by the asides met inside it. -/
def close : Option (NonEmpty H × List T) → List (Group T H)
  | none => []
  | some (run, asides) => .run run :: asides.map .one

def runsFrom : Option (NonEmpty H × List T) → List (Part T H) → List (Group T H)
  | run?, [] => close run?
  | some (run, asides), .human h :: rest => runsFrom (some (⟨run.first, run.rest ++ [h]⟩, asides)) rest
  | none, .human h :: rest => runsFrom (some (⟨h, []⟩, [])) rest
  | some (run, asides), .aside a :: rest => runsFrom (some (run, asides ++ [a])) rest
  | none, .aside a :: rest => .one a :: runsFrom none rest
  | run?, .post p :: rest => close run? ++ .one p :: runsFrom none rest

def runs (items : List (Part T H)) : List (Group T H) := runsFrom none items

end Runs

def joined (texts : List String) : String := "\n".intercalate texts

def Item.part : Item → Part Item PostId
  | .posted id queued => if queued.isHuman then .human id else .post (.posted id queued)
  | .gone id => .aside (.gone id)

def Mail.runs (m : Mail) : List (Group Post (PostId × Post)) :=
  Mailbox.runs (m.pending.entries.map fun e => if e.2.voice = some .human then .human e else .post e.2)

/-- The payload of an item whose post is no longer pending. -/
def Mail.leaves (m : Mail) : Item → Option Queued
  | .posted id queued => if (m.post id).isNone then some queued else none
  | .gone _ => none

def Mail.keeps (m : Mail) (item : Item) : Bool := (m.leaves item).isNone

def postsWhere (p : Queued → Bool) (queue : List Item) : List PostId := queue.filterMap fun
  | .posted id queued => if p queued then some id else none
  | .gone _ => none

/-! ## State -/

inductive Admission
  | free
  | gated
  | parent
deriving DecidableEq

/-- The log, as the cell's transactions see it. -/
structure Journal where
  commits : ℕ
  failed : Bool
  records : List (ℕ × Control)

structure Cell where
  folds : Folds
  queue : List Item
  stopped : Bool
  released : Bool
  exchange : Option Bool
  rung : SortedMap String ScheduleId

/-- What an agent sends its parent: its status, or that a report failed. -/
inductive Notice
  | report (status : ChildStatus)
  | failure

structure Shared where
  admission : Admission
  parent : Option AgentId
  /-- The life is not cancelled. -/
  live : Bool
  /-- A thread panicked inside a transaction. -/
  poisoned : Bool
  owned : Bool
  failureNoticed : Bool
  journal : Journal
  cell : Cell
  notices : List Notice

inductive Fault
  | unavailable
  | ended
  | resting
  /-- An assertion or an `expect` did not hold. -/
  | panicked
deriving DecidableEq

abbrev Txn (α : Type) : Type := Run Fault Shared α

namespace Shared

def mail (s : Shared) : Mail := s.cell.folds.mail

def schedules (s : Shared) : Schedules := s.cell.folds.schedules

def setQueue (s : Shared) (queue : List Item) : Shared := { s with cell := { s.cell with queue } }

/-- Whether the owner may take the item now; no answer is a panic. -/
def admitted (s : Shared) : Item → Option Bool
  | .gone _ => some true
  | .posted id queued =>
    if s.mail.job.isSome then some true
    else match queued with
      | .command _ | .input (.child ..) => some true
      | .input input =>
        match s.admission with
        | .free => some true
        | .gated => some s.cell.released
        | .parent =>
          match input with
          | .human _ => some true
          | _ => (s.mail.post id).map s.mail.byParent

def nextIndex (s : Shared) : List Item → Option (Option ℕ)
  | [] => some none
  | item :: rest =>
    match s.admitted item with
    | none => none
    | some true => some (some 0)
    | some false => (s.nextIndex rest).map fun index => index.map (· + 1)

def schedulesPending (s : Shared) : Bool := s.mail.returns && !s.schedules.entries.isEmpty

def exchangeCancelled (s : Shared) : Bool := s.cell.exchange.any fun cancelled => cancelled || !s.live

def retireSchedules (s : Shared) : List Control := s.schedules.entries.map fun e => .unscheduled e.1

/-- Items whose post is no longer pending, taken out of the queue. -/
def prune (s : Shared) : List Queued × Shared :=
  (s.cell.queue.filterMap s.mail.leaves, s.setQueue (s.cell.queue.filter s.mail.keeps))

end Shared

def collect {α : Type} : List α → Option (NonEmpty α)
  | [] => none
  | a :: rest => some ⟨a, rest⟩

/-! ## Transactions -/

def Shared.latched (s : Shared) : Shared := { s with live := false, journal := { s.journal with failed := true } }

/-- Append before stepping: a failed append leaves every fold unchanged. -/
def commitTo (line : NonEmpty Control) (ok : Bool) : Txn ℕ := fun s =>
  if s.journal.failed || !ok then some (.error .unavailable, s.latched)
  else
    let commit := s.journal.commits + 1
    let journal : Journal := ⟨commit, false, s.journal.records ++ line.toList.map (commit, ·)⟩
    match s.cell.folds.stepLine commit line.toList with
    | .error _ => some (.error .panicked, { s with journal })
    | .ok folds => some (.ok commit, { s with journal, cell := { s.cell with folds } })

def sync (synced : Bool) : Txn Unit := fun s =>
  if s.journal.failed || !synced then some (.error .unavailable, s.latched) else some (.ok (), s)

def isPosted : Control → Bool
  | .posted _ => true
  | _ => false

/-- Every non-post write removes exactly the payloads its line withdrew or took. -/
def commit (line : NonEmpty Control) (ok : Bool) : Txn (List Queued) :=
  if line.toList.any isPosted then Run.fail .panicked
  else do
    let _ ← commitTo line ok
    Run.act Shared.prune

section Posting
variable [Wording]

/-- Only a post appends a `posted`, and installs its payload with it. -/
def postWith (item : Queued) (change : Option Control) (ok : Bool) : Txn PostId := do
  let id ← commitTo ⟨.posted item.posted, change.toList⟩ ok
  Run.modify fun s => s.setQueue (s.cell.queue ++ [.posted id item])
  pure id

def isMessage : Queued → Bool
  | .input (.message _) => true
  | _ => false

def asEnded {α : Type} (x : Txn α) : Txn α :=
  Run.mapError (fun e => if e = .panicked then .panicked else .ended) x

def post (item : Queued) (ok : Bool) : Txn PostId := do
  let s ← Run.get
  if !s.live then Run.fail .ended
  else if s.admission = .parent && s.mail.job.isNone && isMessage item && !s.mail.byParent item.posted then
    Run.fail .resting
  else asEnded (postWith item none ok)

end Posting

def reportFailure : Txn Unit := Run.modify fun s =>
  if s.failureNoticed then s
  else { s with failureNoticed := true, notices := s.notices ++ s.parent.toList.map fun _ => .failure }

/-- What a report withdraws: the queued wakeups, or in a dead cell all that is pending. -/
def Shared.withdrawn (s : Shared) : List PostId :=
  if s.live then postsWhere Queued.isWakeup s.cell.queue else s.mail.pending.entries.map Prod.fst

def report (status : ChildStatus) (ok synced : Bool) : Txn Unit := do
  let s ← Run.get
  let owed := s.mail.owes
  let rest := s.retireSchedules ++ (collect s.withdrawn).toList.map .withdrawn
  let written : Txn Unit := do
    let _ ← commit ⟨.status status, rest⟩ ok
    sync synced
  match ← Run.attempt written with
  | .error .panicked => Run.fail .panicked
  | .error failure => do
      if owed then reportFailure
      Run.fail failure
  | .ok () =>
    if owed then
      Run.modify fun s => { s with notices := s.notices ++ s.parent.toList.map fun _ => .report status }

def schedule (label : String) (schedule : Schedule) (ok : Bool) : Txn Bool := do
  let s ← Run.get
  if (s.schedules.get label).isSome then pure false
  else do
    let _ ← commit ⟨.scheduled label schedule, []⟩ ok
    pure true

def unschedule (label : String) (ok : Bool) : Txn Bool := do
  let s ← Run.get
  if (s.schedules.get label).isNone then pure false
  else do
    let _ ← commit ⟨.unscheduled label, []⟩ ok
    pure true

def isQueuedWakeup (id : ScheduleId) : Item → Bool
  | .posted _ (.input (.wakeup queued _)) => queued = id
  | _ => false

/-- What firing does to a booking. -/
def rebooked (label : String) (schedule : Schedule) (nextUnixMs : Option ℕ) (posted : Bool) : Control :=
  match nextUnixMs with
  | some nextUnixMs => .scheduled label { schedule with nextUnixMs, fires := schedule.fires + posted.toNat }
  | none => .unscheduled label

def fire [Wording] (label : String) (id : ScheduleId) (nextUnixMs : Option ℕ) (text : String) (ok : Bool) :
    Txn Bool := do
  let s ← Run.get
  match s.schedules.get label with
  | none => pure false
  | some schedule =>
    let posted := !(s.cell.queue.any (isQueuedWakeup id))
    let change := rebooked label schedule nextUnixMs posted
    if posted then do
      let _ ← postWith (.input (.wakeup id text)) (some change) ok
      pure true
    else do
      let _ ← commit ⟨change, []⟩ ok
      pure true

def takeRung : Txn (SortedMap String ScheduleId) :=
  Run.act fun s => (s.cell.rung, { s with cell := { s.cell with rung := SortedMap.empty } })

def changeModel (selected : Selected) (ok : Bool) : Txn Unit := do
  let _ ← commit ⟨.modelChanged selected, []⟩ ok
  pure ()

def narrow (model : String) (limit : ℕ) (ok : Bool) : Txn Bool := do
  let s ← Run.get
  if !s.cell.folds.model.narrows model limit then pure false
  else do
    let _ ← commit ⟨.windowNarrowed model limit, []⟩ ok
    pure true

def isGone : Item → Bool
  | .gone _ => true
  | .posted _ _ => false

def clear (ok : Bool) : Txn Unit := do
  let s ← Run.get
  let line := (collect (postsWhere Queued.clears s.cell.queue)).toList.map .withdrawn ++ s.retireSchedules
  match collect line with
  | some line => do
      let _ ← commit line ok
      Run.modify fun s => s.setQueue (s.cell.queue.filter fun item => !isGone item)
  | none => Run.modify fun s => s.setQueue (s.cell.queue.filter fun item => !isGone item)

def Group.run? {T H : Type} : Group T H → Option (NonEmpty H)
  | .run posts => some posts
  | .one _ => none

def recallTexts (ok : Bool) : Txn (List String) := do
  let s ← Run.get
  let runs := s.mail.runs.filterMap Group.run?
  let texts := runs.map fun run => joined (run.toList.map fun e => e.2.text)
  match collect (runs.flatMap fun run => run.toList.map Prod.fst) with
  | some posts => do
      let _ ← commit ⟨.withdrawn posts, []⟩ ok
      pure texts
  | none => pure texts

def takenPart : Queued → Part Queued String
  | .input (.human text) => .human text
  | queued => .post queued

def take (index : ℕ) (ok : Bool) : Txn Queued := do
  let s ← Run.get
  match (runs ((s.cell.queue.drop index).map Item.part)).head? with
  | some (.run posts) => deliver posts
  | some (.one (.posted id _)) => deliver ⟨id, []⟩
  | some (.one (.gone _)) | none => Run.fail .panicked
where
  deliver (posts : NonEmpty PostId) : Txn Queued := do
    let taken ← commit ⟨.taken posts, []⟩ ok
    match (runs (taken.map takenPart)).head? with
    | some (.run texts) => pure (.input (.human (joined texts.toList)))
    | some (.one queued) => pure queued
    | none => Run.fail .panicked

def Shared.stops (s : Shared) (job : Option JobId) : Bool :=
  s.live && s.mail.job.any fun openJob => job.all fun job => job = openJob

def stop (job : Option JobId) : Txn Bool := Run.act fun s =>
  (s.stops job, if s.stops job then
      { s with cell := { s.cell with stopped := true, exchange := s.cell.exchange.map fun _ => true } }
    else s)

def drainedPart : Queued ⊕ AgentId → Option (Part Drained String)
  | .inl (.input (.human text)) => some (.human text)
  | .inl (.input input) => some (.post (.input input))
  | .inl (.command (.read r)) => some (.post (.read r))
  | .inl (.command (.model pick)) => some (.post (.model pick))
  | .inl (.command (.rewrite _)) => none
  | .inr id => some (.aside (.gone id))

def drainedGroup : Group Drained String → Drained
  | .run texts => .input (.human (joined texts.toList))
  | .one drained => drained

def isRewrite : Item → Bool
  | .posted _ queued => queued.isRewrite
  | .gone _ => false

def stretch (queue : List Item) : List Item := queue.takeWhile fun item => !isRewrite item

def fillSlots : List Item → List Queued → Option (List (Queued ⊕ AgentId))
  | [], _ => some []
  | .gone id :: slots, taken => (fillSlots slots taken).map (.inr id :: ·)
  | .posted _ _ :: slots, queued :: taken => (fillSlots slots taken).map (.inl queued :: ·)
  | .posted _ _ :: _, [] => none

def drainSlots (slots : List Item) (taken : List Queued) : Txn (List Drained) := do
  let gones := (slots.filter isGone).length
  let s ← Run.get
  if (s.cell.queue.take gones).all isGone then do
    Run.modify fun s => s.setQueue (s.cell.queue.drop gones)
    match (fillSlots slots taken).bind fun filled => filled.mapM drainedPart with
    | some parts => pure ((runs parts).map drainedGroup)
    | none => Run.fail .panicked
  else Run.fail .panicked

def drain (ok : Bool) : Txn (List Drained) := do
  let s ← Run.get
  if s.exchangeCancelled then pure []
  else
    let slots := stretch s.cell.queue
    match collect (postsWhere (fun _ => true) slots) with
    | some posts => do
        let taken ← commit ⟨.taken posts, []⟩ ok
        drainSlots slots taken
    | none => drainSlots slots []

/-! ## The agent's address -/

def gone (id : AgentId) : Txn Unit := Run.modify fun s =>
  if s.live then s.setQueue (s.cell.queue ++ [.gone id]) else s

def ring (label : String) (id : ScheduleId) : Txn Unit := Run.modify fun s =>
  if s.live then
    let rung := match s.cell.rung.get label with
      | some rung => max rung id
      | none => id
    { s with cell := { s.cell with rung := s.cell.rung.insert label rung } }
  else s

def release : Txn Bool := Run.act fun s =>
  if !s.live then (false, s)
  else if s.admission = .gated && s.mail.job.isNone then
    (true, { s with cell := { s.cell with released := true } })
  else (true, s)

def endLife : Txn Unit := Run.modify fun s => { s with live := false }

def checkAvailable : Txn Unit := fun s => some (if s.journal.failed then .error .unavailable else .ok (), s)

def recallLive (ok : Bool) : Txn (List String) := do
  checkAvailable
  let s ← Run.get
  if s.live then recallTexts ok else pure []

def stopJob (job : JobId) (ok : Bool) : Txn (Option (List String)) := do
  checkAvailable
  let hits ← stop (some job)
  if hits then do
    let texts ← recallTexts ok
    pure (some texts)
  else pure none

/-! ## The owner's loop -/

inductive Next
  | take (input : Input)
  | command (command : Command)
  | rung
  | gone (id : AgentId)
  | settled (stopped owes : Bool)
  | ended
  /-- Nothing yet: the lock is given up until a wake. -/
  | parked

/-- One pass under the lock; `pending` is the caller's rest, `expired` that it idled out. -/
def next (pending expired ok : Bool) : Txn Next := do
  let s ← Run.get
  if !s.live then pure .ended
  else if !s.cell.rung.entries.isEmpty then pure .rung
  else match s.nextIndex s.cell.queue with
    | none => Run.fail .panicked
    | some (some index) =>
      match s.cell.queue[index]? with
      | some (.gone id) => do
          Run.modify fun s => s.setQueue (s.cell.queue.eraseIdx index)
          pure (.gone id)
      | _ => do
          match ← Run.attempt (take index ok) with
          | .error .panicked => Run.fail .panicked
          | .error _ => pure .ended
          | .ok (.command c) => pure (.command c)
          | .ok (.input input) => do
              Run.modify fun s => { s with cell := { s.cell with exchange := some false } }
              pure (.take input)
    | some none =>
      match s.mail.job, s.admission with
      | some job, _ =>
        if !pending && !s.schedulesPending then do
          match ← Run.attempt (commit ⟨.jobSettled job s.cell.stopped, []⟩ ok) with
          | .error .panicked => Run.fail .panicked
          | .error _ => pure .ended
          | .ok _ => do
              let s' ← Run.get
              pure (.settled s.cell.stopped s'.mail.owes)
        else pure .parked
      | none, .parent =>
        if expired then do
          Run.modify fun s => { s with live := false }
          pure .ended
        else pure .parked
      | none, _ => pure .parked

def begin (ok : Bool) : Txn Bool := do
  let s ← Run.get
  if !s.live then pure false
  else if s.mail.job.isNone then do
    match ← Run.attempt (commit ⟨.jobOpened, []⟩ ok) with
    | .error .panicked => Run.fail .panicked
    | .error _ => pure false
    | .ok _ => do
        Run.modify fun s => { s with cell := { s.cell with stopped := false, released := false } }
        pure true
  else pure true

end Ral.Mailbox
