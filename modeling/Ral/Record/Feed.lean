import Mathlib.Logic.Function.Basic
import Ral.Record.Crash

/-! # The log and its subscribers

What threads share of one log: the append lock's state, the sink, the sync in
flight, and the readers that follow the log by its channel and catch up from its
file. One event is one hold of the append lock, or one act outside it.
-/

namespace Ral.Record

/-- How far a reader has come: the last commit it read, and the byte its line ends at. -/
structure Cursor where
  commit : ℕ
  stop : ℕ
deriving DecidableEq

namespace Cursor

def start : Cursor := ⟨0, 0⟩

def next (c : Cursor) : ℕ := c.commit + 1

def past {R : Type} (c : Commit R) : Cursor := ⟨c.number, c.bytes.stop⟩

end Cursor

namespace Feed

/-- What a sink sends down its channel. -/
inductive Signal (R : Type)
  | commit (c : Commit R)
  | synced (through : ℕ)

/-- Where a thread stands in `sync`. -/
inductive Syncing
  | idle
  | asking
  | noted (through : ℕ)
  | holding (through : ℕ)
  | checked (through : ℕ)
  | flushing (through begun : ℕ)
  | flushed (through : ℕ)

/-- What a reader does next: drain its channel, ask the log, or read to `stop`. -/
inductive Mode
  | idle
  | behind
  | reading (source : Cursor) (stop : ℕ)
deriving DecidableEq

/-- A reader that mirrors the log. -/
structure Subscriber (R : Type) where
  cursor : Option Cursor
  seen : List (Commit R)
  synced : ℕ
  mode : Mode

namespace Subscriber
variable {R : Type}

def fresh : Subscriber R := ⟨none, [], 0, .idle⟩

def step (sub : Subscriber R) (commit : Commit R) : Subscriber R :=
  { sub with
    seen := sub.seen ++ [commit]
    cursor := sub.cursor.map fun _ => Cursor.past commit }

/-- Mirror what was read back, up to the first line that is no commit. -/
def absorb (sub : Subscriber R) : List (Except LineError (Commit R)) → Subscriber R
  | [] => sub
  | .error _ :: _ => sub
  | .ok commit :: rest => (sub.step commit).absorb rest

/-- One commit heard live: a repeat is skipped, and a gap is read from the log. -/
def commit (sub : Subscriber R) (commit : Commit R) : Subscriber R :=
  match sub.cursor with
  | none => { sub with mode := .behind }
  | some cursor =>
    if commit.number < cursor.next then sub
    else if commit.number = cursor.next then sub.step commit
    else { sub with mode := .behind }

def hear (sub : Subscriber R) : Signal R → Subscriber R
  | .commit commit => sub.commit commit
  | .synced through => { sub with synced := max sub.synced through }

end Subscriber

/-! ## Shared state -/

/-- The file, the append lock's state, and who waits on what. -/
structure World (R : Type) where
  file : Bytes
  log : Log
  /-- A holder of the append lock panicked. -/
  poisoned : Bool
  synced : ℕ
  sink : Option ℕ
  syncing : Option ℕ
  threads : ℕ → Syncing
  queues : ℕ → List (Signal R)
  subscribers : ℕ → Subscriber R

inductive Event (R : Type)
  | append (atUnixMs : ℕ) (records : NonEmpty R) (room : Option ℕ)
  | fail (why : String)
  /-- A holder of the append lock panics with `part` written. -/
  | panic (part : Bytes)
  | attach (channel : ℕ)
  | sync (thread : ℕ) (ok : Bool)
  /-- A reader asks for the log's extent; the file opens or not. -/
  | since (channel : ℕ) (opens : Bool)
  | readBack (channel : ℕ) (lines : Option ℕ)
  | drain (channel : ℕ)

namespace World
variable {R : Type}

/-- The first failure stands. -/
def latch (w : World R) (why : String) : World R :=
  { w with log := { w.log with failure := w.log.failure.or (some why) } }

def publish (w : World R) (signal : Signal R) : World R :=
  match w.sink with
  | none => w
  | some channel =>
    { w with queues := Function.update w.queues channel (w.queues channel ++ [signal]) }

def setThread (w : World R) (thread : ℕ) (at' : Syncing) : World R :=
  { w with threads := Function.update w.threads thread at' }

def setSubscriber (w : World R) (channel : ℕ) (sub : Subscriber R) : World R :=
  { w with subscribers := Function.update w.subscribers channel sub }

def attach (w : World R) (channel : ℕ) : World R :=
  if w.poisoned then w
  else { w with sink := some channel }.publish (.synced w.synced)

/-- The writer's standing failure; a poisoned lock is latched when first met. -/
def checkAvailable (w : World R) : World R × Bool :=
  if w.poisoned then (w.latch "a thread panicked while holding this lock", false)
  else (w, w.log.failure.isNone)

/-- `sync` returns, its lock released. -/
def finish (w : World R) (thread : ℕ) : World R :=
  { w with syncing := none }.setThread thread .idle

/-- Sync a noted prefix without holding the append lock during disk IO. -/
def sync (w : World R) (thread : ℕ) (ok : Bool) : World R :=
  match w.threads thread with
  | .idle =>
    match w.checkAvailable with
    | (w, true) => w.setThread thread .asking
    | (w, false) => w
  | .asking =>
    if w.poisoned then (w.latch "torn").setThread thread .idle
    else if w.log.commits = w.synced then w.setThread thread .idle
    else w.setThread thread (.noted w.log.commits)
  | .noted through =>
    match w.syncing with
    | some _ => w
    | none => { w with syncing := some thread }.setThread thread (.holding through)
  | .holding through =>
    match w.checkAvailable with
    | (w, true) => w.setThread thread (.checked through)
    | (w, false) => w.finish thread
  | .checked through =>
    if w.poisoned then (w.latch "torn").finish thread
    else if through ≤ w.synced then w.finish thread
    else w.setThread thread (.flushing through w.log.commits)
  | .flushing through _ =>
    if ok then w.setThread thread (.flushed through)
    else (w.latch "syncing failed").finish thread
  | .flushed through =>
    match w.checkAvailable with
    | (w, true) =>
      let w := { w with synced := max w.synced through }
      (w.publish (.synced w.synced)).finish thread
    | (w, false) => w.finish thread

/-- Where the cursor stands, the watermark, and the extent to read to. -/
def since (w : World R) (channel : ℕ) (opens : Bool) : World R :=
  let sub := w.subscribers channel
  match sub.mode with
  | .reading _ _ => w
  | _ =>
    if w.poisoned || !opens then w.setSubscriber channel { sub with mode := .idle }
    else
      let source := sub.cursor.getD Cursor.start
      w.setSubscriber channel
        ⟨some source, sub.seen, max sub.synced w.synced, .reading source w.log.pos⟩

def drain (w : World R) (channel : ℕ) : World R :=
  let sub := w.subscribers channel
  match sub.mode, w.queues channel with
  | .idle, signal :: rest =>
    { w with queues := Function.update w.queues channel rest }.setSubscriber channel (sub.hear signal)
  | _, _ => w

section Step
variable (json : Json R) (blake3 : Bytes → Bytes)

def append (w : World R) (atUnixMs : ℕ) (records : NonEmpty R) (room : Option ℕ) :
    World R × Option (Commit R) :=
  if w.poisoned then (w.latch "torn", none)
  else
    match w.log.append json blake3 w.file atUnixMs records room with
    | (log, file, .ok commit) => ({ w with log, file }.publish (.commit commit), some commit)
    | (log, file, .error _) => ({ w with log, file }, none)

def readBack (w : World R) (channel : ℕ) (lines : Option ℕ) : World R :=
  let sub := w.subscribers channel
  match sub.mode with
  | .reading source stop =>
    let read := commits json blake3 w.file source.commit source.stop stop
    w.setSubscriber channel
      (({ sub with mode := .idle } : Subscriber R).absorb (read.take (lines.getD read.length)))
  | _ => w

def step (w : World R) : Event R → World R × Option (Commit R)
  | .append atUnixMs records room => w.append json blake3 atUnixMs records room
  | .fail why => (w.latch why, none)
  | .panic part =>
    (if w.poisoned then w else { w with file := w.file ++ part, poisoned := true }, none)
  | .attach channel => (w.attach channel, none)
  | .sync thread ok => (w.sync thread ok, none)
  | .since channel opens => (w.since channel opens, none)
  | .readBack channel lines => (w.readBack json blake3 channel lines, none)
  | .drain channel => (w.drain channel, none)

end Step

end World

/-! ## Histories -/

/-- A world with every commit of its log, each publication, and the commits that
were written before a sync that succeeded. -/
structure History (R : Type) where
  world : World R
  minted : List (Commit R)
  published : List (ℕ × Commit R)
  durable : ℕ

/-- The commits written when the `sync_data` that now succeeds was entered. -/
def flushedBy {R : Type} (w : World R) : Event R → ℕ
  | .sync thread true =>
    match w.threads thread with
    | .flushing _ begun => begun
    | _ => 0
  | _ => 0

namespace History
variable {R : Type} (json : Json R) (blake3 : Bytes → Bytes)

def step (h : History R) (event : Event R) : History R :=
  let (world, acknowledged) := h.world.step json blake3 event
  ⟨world, h.minted ++ acknowledged.toList,
    h.published ++ (h.world.sink.toList.flatMap fun channel =>
      acknowledged.toList.map fun commit => (channel, commit)),
    max h.durable (flushedBy h.world event)⟩

def run (h : History R) (events : List (Event R)) : History R := events.foldl (step json blake3) h

variable {json blake3}

/-- A log just opened over these lines, with nothing attached. -/
def reopened (entries : List (Entry json blake3)) : History R where
  world :=
    { file := bytesOf entries
      log := ⟨entries.length, (bytesOf entries).length, none⟩
      poisoned := false
      synced := 0
      sink := none
      syncing := none
      threads := fun _ => .idle
      queues := fun _ => []
      subscribers := fun _ => Subscriber.fresh }
  minted := lay 0 0 entries
  published := []
  durable := 0

end History

end Feed

end Ral.Record
