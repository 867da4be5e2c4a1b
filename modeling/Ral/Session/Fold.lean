import Ral.Session.Table

/-! # The context fold

One fold over a log's transcript records: each is judged, then applied.
-/

namespace Ral.Session
open Ral.Record (Recorded Locus)

/-- Every turn and eviction the lineage recorded, and where each is. `newestEdit` is the index of
the last context edit. -/
structure Context where
  table : Table
  state : State
  system : String
  len : ℕ
  newestEdit : Option ℕ

/-- Why a fold stopped. A panic is one of the source's own `unreachable!`s. -/
inductive Refusal
  | unreadable (error : String)
  | foreign (record : Transcript) (reason : String)
  | panicked (message : String)

namespace Context

def new (source : AgentId) : Context := ⟨.new source, .readyForUser, "", 0, none⟩

/-! ## Readings -/

def reach (c : Context) : Option ℕ := c.table.turns.getLast?.map Turn.id

def turn (c : Context) (id : ℕ) : Option Turn := c.table.turn id

def isReady (c : Context) : Bool := c.state.admitsNewTurn

def idFloor (c : Context) : ℕ := c.reach.getD 0

def nextId (c : Context) : ℕ := saturatingAdd c.idFloor 1

/-- The turn being written, the newest while it is resident and the protocol is mid-turn. -/
def unclosedTurn (c : Context) : Option ℕ :=
  (c.table.turns.getLast?.filter fun t => t.isResident && c.state != .readyForUser).map Turn.id

def promptOf (c : Context) (id : ℕ) : Option ℕ :=
  (c.table.turns.findIdx? fun t => t.id = id).bind fun index =>
    ((c.table.turns.take (index + 1)).reverse.find? Turn.isUser).map Turn.id

/-- The prompt a continuation may extend: the newest turn's, while that turn is resident. -/
def livePrompt (c : Context) : Option ℕ :=
  (c.table.turns.getLast?.filter Turn.isResident).bind fun last => c.promptOf last.id

def pendingToolResults (c : Context) : Option (List String) :=
  match c.state with
  | .awaitingToolResults pendingIds => some pendingIds
  | _ => none

def notRecordedRefusalTurn (turn : ℕ) : Option ℕ → String
  | some reach => s!"turn {turn} is not recorded: the latest is {reach}"
  | none => s!"turn {turn} is not recorded: nothing has been recorded yet"

/-! ## Edits -/

def endRefusal (c : Context) (id : ℕ) : Option String :=
  match c.turn id with
  | none => some (notRecordedRefusalTurn id c.reach)
  | some t =>
    if t.isWithdrawn then
      some s!"turn {id} was rewound or cleared away: it is no longer in your context"
    else none

/-- What stands against an eviction of the run `span`: an end never recorded or withdrawn, a run
that holds the turn being written, one that cuts an eviction. -/
def cutRefusal (c : Context) (span : Span) : Option String :=
  let written := (c.unclosedTurn.filter fun id => span.fst ≤ id ∧ id ≤ span.snd).map fun id =>
    s!"turn {id} is being written now: an eviction keeps the work in hand"
  let cut := (c.table.straddling span.fst).or
    (c.table.straddling (saturatingAdd span.snd 1))
  let straddled := cut.map fun e =>
    s!"{e.span.turns} stand together under one note: name from: {e.span.fst}, " ++
      s!"to: {e.span.snd} whole, or leave it"
  (c.endRefusal span.fst).or ((c.endRefusal span.snd).or (written.or straddled))

def rewindRefusal (c : Context) (anchor : ℕ) : Option String :=
  match c.turn anchor with
  | none => some (notRecordedRefusalTurn anchor c.reach)
  | some t =>
    if t.isWithdrawn then
      let earliest := match c.table.turns.find? fun t => !t.isWithdrawn with
        | some first => s!"the earliest you can rewind to is turn {first.id}"
        | none => "nothing has been said since the last /clear or /rewind"
      some s!"turn {anchor} was already rewound or cleared away; {earliest}"
    else match c.table.straddling anchor with
      | some e =>
        some (s!"turn {anchor} lies under the eviction over {e.span.turns}: " ++
          s!"rewind to turn {e.span.fst} or turn {e.span.snd + 1}")
      | none =>
        if c.isReady then none
        else some s!"cannot rewind while the session is {c.state.waitingFor}"

/-! ## The judge -/

def opens : Transcript → Option ℕ
  | .userPrompt turn _ _ => some turn
  | .assistantMessage turn _ _ _ => some turn
  | .import turn _ => some turn
  | _ => none

/-- An id the log had already moved past. -/
def stale (c : Context) (p : Transcript) : Option ℕ :=
  (opens p).filter fun id => c.reach.any fun reach => id ≤ reach

def extended (c : Context) : Transcript → Option Turn
  | .steering _ _ => c.table.turns.getLast?
  | .toolResults _ => c.table.turns.getLast?
  | _ => none

/-- The first pair of which the later neither covers the earlier nor lies apart from it. -/
def crossed : List Span → Option (Span × Span)
  | [] => none
  | earlier :: rest =>
    match rest.find? fun later => !decide (earlier ≤ later ∨ Intervals.Apart earlier later) with
    | some later => some (earlier, later)
    | none => crossed rest

/-- The first turn of a link and the next that does not follow it in id order. -/
def disorder (turns : List Linked) : Option (Linked × Linked) :=
  (turns.zip turns.tail).find? fun pair => pair.2.row.id ≤ pair.1.row.id

def loose (turns : List Linked) (spans : List Span) : Option Span :=
  let carried id := turns.any fun linked => linked.row.id = id
  spans.find? fun span => !carried span.fst || !carried span.snd

def contradicted (turns : List Linked) (spans : List Span) : Option TurnRow :=
  (turns.map Linked.row).find? fun row =>
    row.location ≠ .withdrawn ∧ row.location ≠ heldBy (.single row.id) spans

/-- What no fork's opening carries. -/
def linkRefusal (n : ℕ) (turns : List Linked) (evictions : List Eviction) : Option String :=
  let spans := evictions.map Eviction.span
  let late := if n ≠ 1 then
      some (s!"record {n} links this log to an ancestor's transcript, which only a fork's " ++
        "opening may do; by here the log has a context of its own, and no live session " ++
        "inherits twice")
    else none
  late.or <| ((disorder turns).map fun pair =>
    s!"record {n} links a transcript whose turn {pair.1.row.id} does not precede turn " ++
      s!"{pair.2.row.id} in id order; was this log's opening record hand-edited?").or <|
  ((loose turns spans).map fun span =>
    s!"record {n} links an eviction over {span.turns}, whose ends are not " ++
      "a run of turns the link carries; was this log's opening record hand-edited?").or <|
  ((crossed spans).map fun pair =>
    s!"record {n} links an eviction over {pair.1.turns} and a later one " ++
      s!"over {pair.2.turns}, which no sequence of evictions leaves: a later " ++
      "eviction covers an earlier one whole or lies apart from it; was this log's opening " ++
      "record hand-edited?").or <|
  (contradicted turns spans).map fun row =>
    s!"record {n} links turn {row.id} as {row.location.asStr}, which its evictions contradict; " ++
      "was this log's opening record hand-edited?"

def gone (c : Context) (anchor : ℕ) : Option String :=
  match c.turn anchor with
  | none => some "was never recorded"
  | some t => if t.isWithdrawn then some "a /clear or /rewind had already withdrawn" else none

/-- What no live session rewinds to. -/
def anchorRefusal (c : Context) (n anchor : ℕ) : Option String :=
  ((c.gone anchor).map fun gone =>
    s!"record {n} rewinds to turn {anchor}, which {gone}; was record.jsonl hand-edited?").or
  ((c.table.straddling anchor).map fun e =>
    s!"record {n} rewinds to turn {anchor}, inside the eviction over " ++
      s!"{e.span.turns}; was record.jsonl hand-edited?")

/-- What a record must satisfy by its own kind, over its place in the sequence. -/
def kindRefusal (c : Context) (n : ℕ) : Transcript → Option String
  | .inherited turns evictions => linkRefusal n turns evictions
  | .rewound anchor => c.anchorRefusal n anchor
  | .evicted e => (c.cutRefusal e.span).map fun reason =>
    s!"record {n} evicts {e.span.turns}, which no live session could: {reason}; " ++
      "was record.jsonl hand-edited?"
  | .steering _ _ =>
    if c.table.turns = [] then
      some (s!"record {n} steers a turn, but no turn has been recorded; " ++
        "was record.jsonl hand-edited?")
    else none
  | _ => none

/-- What no live session could have written as record `n`, counted from 1. -/
def judge (c : Context) (n : ℕ) (p : Transcript) : Option String :=
  if !admissible c.state p then
    some (s!"record {n} is foreign protocol data, not a seam that quiesce can repair; " ++
      "was record.jsonl hand-edited or written by an incompatible exarch?")
  else match c.stale p with
  | some id =>
    some (s!"record {n} names turn {id}, which the log had already moved past; " ++
      "no live session records a stale id")
  | none => (c.kindRefusal n p).or (((c.extended p).filter fun t => !t.isResident).map fun t =>
    s!"record {n} extends turn {t.id}, which has already left the context")

/-! ## The step -/

/-- A row of a link read back through its pointer, and cut to its admissible prefix. -/
def readSeed [Host] (linked : Linked) : Except Refusal (List (Recorded Transcript)) :=
  match Table.readPointer linked.pointer with
  | .ok records => .ok (cut records)
  | .error e => .error <| .unreadable <|
    s!"turn {linked.row.id} was inherited from {Host.recordName linked.pointer.source}, " ++
      s!"which no longer reads back ({e}); was that session's directory moved, copied or edited?"

def readSeeds [Host] (turns : List Linked) : Except Refusal (List (List (Recorded Transcript))) :=
  (turns.filter fun linked => linked.row.location.isResident).mapM readSeed

def place (table : Table) : Transcript → Option (Table × ℕ)
  | .userPrompt turn text _ =>
    some (table.openTurn turn .user .own (openingLine text), table.turns.length)
  | .assistantMessage turn message _ _ =>
    some (table.openTurn turn .assistant .own (messageLabel message), table.turns.length)
  | .import turn message =>
    some (table.openTurn turn (messageRole message) .import (messageLabel message),
      table.turns.length)
  | .steering _ _ => if table.turns = [] then none else some (table, table.turns.length - 1)
  | .toolResults _ => if table.turns = [] then none else some (table, table.turns.length - 1)
  | _ => none

/-- Every turn from `lo` on withdrawn; the automaton rests where the newest resident turn leaves
it. -/
def withdraw (c : Context) (lo : ℕ) : Context :=
  let table := c.table.withdraw lo
  let last := (table.turns.filter Turn.isResident).getLast?
  { c with
    table := table
    state := resting (last.elim [] Turn.records)
    newestEdit := some c.len }

variable [Host]

/-- The record's own effect: the system prompt, the link or the edit it makes. -/
def apply (c : Context) (p : Transcript) : Except Refusal Context :=
  let c' := { c with state := c.state.advance p }
  match p with
  | .system text => .ok { c' with system := text }
  | .inherited turns evictions =>
    match readSeeds turns with
    | .error e => .error e
    | .ok seeds =>
      match c.table.install turns evictions seeds with
      | some table => .ok { c' with table := table }
      | none => .error (.panicked "one seed per resident row")
  | .evicted e => .ok { c' with table := c.table.evict e, newestEdit := some c.len }
  | .rewound anchor => .ok (c.withdraw anchor)
  | .cleared => .ok (c.withdraw 0)
  | _ => .ok c'

def stepTranscript (c : Context) (record : Recorded Transcript) : Except Refusal Context :=
  match c.judge (c.len + 1) record.value with
  | some reason => .error (.foreign record.value reason)
  | none =>
    match c.apply record.value with
    | .error e => .error e
    | .ok applied =>
      let next := { applied with len := c.len + 1 }
      match place next.table record.value with
      | none => .ok next
      | some (table, index) =>
        let bytes := messageBytes (chatMessages record.value)
        match table.absorb index record bytes with
        | some table => .ok { next with table := table }
        | none => .error (.panicked "a judged record lands on a resident turn")

def replay (c : Context) (records : List (Recorded Transcript)) : Except Refusal Context :=
  records.foldlM stepTranscript c

def renderEviction (e : Eviction) : String :=
  let turns := e.span.shown "Turn" "Turns"
  let (has, they, them) :=
    if e.span.fst = e.span.snd then ("has", "It is", "it") else ("have", "They are", "them")
  let departed := match e.note with
    | some note => s!"{turns} {has} left your context.\nYour note: {Host.quoted note}"
    | none => s!"{turns} {has} left your context in a forced eviction, without a note."
  s!"[EXARCH // {departed}\n{they} still readable: exarch-transcript `read [turns: " ++
    "!\x7brange " ++ s!"{e.span.fst} {e.span.snd + 1}" ++ "\x7d] reads " ++
    s!"{them} back as material, exarch-transcript `index lists every turn and every note, and " ++
    "exarch-transcript `grep [pattern: 're', turns: `all] searches both.]"

end Context

def Item.messages [Host] : Item → List ChatMessage
  | .turn t => residentMessages t.records
  | .eviction e => [.user (Context.renderEviction e.1)]

def Context.rendered [Host] (c : Context) : List ChatMessage :=
  c.table.frontier.flatMap Item.messages

/-! ## One session's log

The operations by which an agent writes its own transcript. Each decides on the folded
context, writes through the seam, and folds what it wrote.
-/

/-- What the seam does with the next record after those written: a locus once it is durable, or
the failure that ends the session. -/
abbrev Writer : Type := List (Recorded Transcript) → Transcript → Except String Locus

/-- How an operation ended. -/
inductive Outcome
  | committed
  /-- Nothing was recorded and the session is usable. -/
  | refused (why : String)
  | unavailable (why : String)
  | panicked (message : String)

/-- `written` is the transcript records `record.jsonl` holds, and `failure` the writer's first. -/
structure AgentLog where
  id : AgentId
  context : Context
  written : List (Recorded Transcript)
  failure : Option String

/-- What a fork is opened with: its parent's turn table and evictions. -/
structure Inherited where
  turns : List Linked
  evictions : List Eviction

def Turn.linked (source : AgentId) (t : Turn) : Linked :=
  ⟨⟨t.id, t.role, .inherited, t.label, t.bytes, t.location⟩, t.pointer source⟩

def Context.linked (c : Context) : List Linked := c.table.turns.map (Turn.linked c.table.source)

def Context.evictions (c : Context) : List Eviction := c.table.evictions.map Prod.fst

namespace AgentLog

/-- The parent half of a fork. -/
def inheritedContext (log : AgentLog) : Inherited := ⟨log.context.linked, log.context.evictions⟩

variable [Host] (writer : Writer)

def emit (p : Transcript) (log : AgentLog) : Except String (Recorded Transcript) × AgentLog :=
  match log.failure with
  | some why => (.error why, log)
  | none =>
    match writer log.written p with
    | .error why => (.error why, { log with failure := some why })
    | .ok locus => (.ok ⟨locus, p⟩, { log with written := log.written ++ [⟨locus, p⟩] })

/-- Write a record and fold it. A foreign record is a caller's bug and panics. -/
def recordTranscript (p : Transcript) (log : AgentLog) : Outcome × AgentLog :=
  match log.emit writer p with
  | (.error why, log) => (.unavailable why, log)
  | (.ok recorded, log) =>
    match log.context.stepTranscript recorded with
    | .ok context => (.committed, { log with context := context })
    | .error (.unreadable e) => (.unavailable e, { log with failure := some e })
    | .error (.foreign _ reason) =>
      (.panicked s!"model fold refused a live record: refused a foreign record: {reason}", log)
    | .error (.panicked message) => (.panicked message, log)

/-- Write records until one does not commit. -/
def recordAll : List Transcript → AgentLog → Outcome × AgentLog
  | [], log => (.committed, log)
  | p :: rest, log =>
    match log.recordTranscript writer p with
    | (.committed, log) => recordAll rest log
    | stopped => stopped

def create (id : AgentId) (inherited : Option Inherited) (system : String) : Outcome × AgentLog :=
  let link := inherited.map fun i => Transcript.inherited i.turns i.evictions
  recordAll writer (link.toList ++ [.system system]) ⟨id, .new id, [], none⟩

/-! ## Operations -/

/-- A user prompt opening a turn of its own, or extending the turn `continues` names where that
prompt is still the live one. -/
def appendUser (text : String) (continues : Option ℕ) (voice : Voice) (log : AgentLog) :
    Outcome × AgentLog :=
  let c := log.context
  if !c.isReady then
    (.refused s!"cannot accept a new user prompt while the session is {c.state.waitingFor}", log)
  else
    let live := continues.any fun id => c.livePrompt == some id
    log.recordTranscript writer <|
      if live then .steering text voice else .userPrompt c.nextId text voice

/-- A user line between a complete batch of results and the next request. -/
def appendSteering (text : String) (voice : Voice) (log : AgentLog) : Outcome × AgentLog :=
  let c := log.context
  if !c.state.awaitsAssistant then
    (.refused ("tool results must be complete before accepting a steering prompt; the session is "
      ++ c.state.waitingFor), log)
  else if c.unclosedTurn = none then
    (.refused "cannot accept a steering prompt: no turn is being written", log)
  else log.recordTranscript writer (.steering text voice)

def roleLabel : ChatRole → String
  | .system => "system"
  | .user => "user"
  | .assistant => "assistant"
  | .tool => "tool"

def appendAssistant (message : ChatMessage) (pendingToolIds : List String)
    (stopReason : Option String) (log : AgentLog) : Outcome × AgentLog :=
  let c := log.context
  if !c.state.awaitsAssistant then
    (.refused s!"assistant message is not expected while the session is {c.state.waitingFor}", log)
  else if message.role ≠ .assistant then
    (.refused s!"a {roleLabel message.role} message arrived where the assistant's reply was expected",
      log)
  else log.recordTranscript writer (.assistantMessage c.nextId message pendingToolIds stopReason)

def appendToolResults (results : List ToolResult) (log : AgentLog) : Outcome × AgentLog :=
  let c := log.context
  match c.pendingToolResults with
  | none =>
    (.refused s!"tool results are not expected while the session is {c.state.waitingFor}", log)
  | some pendingIds =>
    match validateResultIds pendingIds results with
    | .error why => (.refused why, log)
    | .ok () => log.recordTranscript writer (.toolResults results)

def importNote (message : ChatMessage) (log : AgentLog) : Outcome × AgentLog :=
  let c := log.context
  if !c.isReady then
    (.refused s!"cannot import context while the session is {c.state.waitingFor}", log)
  else log.recordTranscript writer (.import c.nextId message)

/-- Record only what the log still owes. -/
def quiesce (reason : QuiesceReason) (log : AgentLog) : Outcome × AgentLog :=
  log.recordAll writer (quiesceRecords log.context.state reason log.context.nextId)

def evict (span : Span) (note : Option String) (authority : EditAuthority) (log : AgentLog) :
    Outcome × AgentLog :=
  match log.context.cutRefusal span with
  | some why => (.refused why, log)
  | none => log.recordTranscript writer (.evicted ⟨span, note, authority⟩)

def rewind (anchor : ℕ) (log : AgentLog) : Outcome × AgentLog :=
  match log.context.rewindRefusal anchor with
  | some why => (.refused why, log)
  | none => log.recordTranscript writer (.rewound anchor)

/-- Withdraw every turn. -/
def clear (log : AgentLog) : Outcome × AgentLog :=
  match log.failure with
  | some why => (.unavailable why, log)
  | none =>
    if !log.context.isReady then
      (.refused s!"cannot clear while the session is {log.context.state.waitingFor}", log)
    else log.recordTranscript writer .cleared

/-! ## Reopening -/

/-- Fold the log, quiesce a context that is not ready, and record the prompt if it changed. -/
def reopen (id : AgentId) (written : List (Recorded Transcript)) (system : String) :
    Except Refusal (Outcome × AgentLog) :=
  match (Context.new id).replay written with
  | .error refusal => .error refusal
  | .ok context =>
    let log : AgentLog := ⟨id, context, written, none⟩
    .ok <| match if log.context.isReady then (.committed, log) else log.quiesce writer .aborted with
      | (.committed, log) =>
        if system ≠ log.context.system then log.recordTranscript writer (.system system)
        else (.committed, log)
      | stopped => stopped

end AgentLog

/-- What may be asked of a log. -/
inductive Operation
  | appendUser (text : String) (continues : Option ℕ) (voice : Voice)
  | appendSteering (text : String) (voice : Voice)
  | appendAssistant (message : ChatMessage) (pendingToolIds : List String)
      (stopReason : Option String)
  | appendToolResults (results : List ToolResult)
  | importNote (message : ChatMessage)
  | evict (span : Span) (note : Option String) (authority : EditAuthority)
  | rewind (anchor : ℕ)
  | clear
  | quiesce (reason : QuiesceReason)

def Operation.run [Host] (writer : Writer) (op : Operation) (log : AgentLog) :
    Outcome × AgentLog :=
  match op with
  | .appendUser text continues voice => log.appendUser writer text continues voice
  | .appendSteering text voice => log.appendSteering writer text voice
  | .appendAssistant message ids stopReason => log.appendAssistant writer message ids stopReason
  | .appendToolResults results => log.appendToolResults writer results
  | .importNote message => log.importNote writer message
  | .evict span note authority => log.evict writer span note authority
  | .rewind anchor => log.rewind writer anchor
  | .clear => log.clear writer
  | .quiesce reason => log.quiesce writer reason

end Ral.Session
