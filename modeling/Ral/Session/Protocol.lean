import Mathlib.Order.Interval.Basic
import Ral.Record.Log

/-! # Transcript records

What was said in a conversation and done to it, one record a step: the messages, the
evictions that stand for spans of turns, and the link a fork opens with.
-/

namespace Ral.Session
open Ral.Record (Recorded Locus)

/-! ## Unsigned arithmetic -/

def u64Max : ℕ := 2 ^ 64 - 1

/-- Addition that stops at the largest value. -/
def saturatingAdd (a b : ℕ) : ℕ := min (a + b) u64Max

/-! ## Messages -/

inductive ChatRole
  | system
  | user
  | assistant
  | tool
deriving DecidableEq

/-- `description` is the string the call's arguments hold under that name. -/
structure ToolCall where
  callId : String
  fnName : String
  description : Option String
deriving DecidableEq

structure ToolResponse where
  callId : String
  content : String
deriving DecidableEq

/-- The parts no reading here tells apart are `other`. -/
inductive ContentPart
  | text (text : String)
  | toolCall (call : ToolCall)
  | toolResponse (response : ToolResponse)
  | other (raw : String)
deriving DecidableEq

structure ChatMessage where
  role : ChatRole
  content : List ContentPart
deriving DecidableEq

namespace ChatMessage

def user (text : String) : ChatMessage := ⟨.user, [.text text]⟩

def assistant (text : String) : ChatMessage := ⟨.assistant, [.text text]⟩

def ofToolResponse (response : ToolResponse) : ChatMessage := ⟨.tool, [.toolResponse response]⟩

def firstText (message : ChatMessage) : Option String :=
  message.content.findSome? fun
    | .text text => some text
    | _ => none

end ChatMessage

/-! ## Spans -/

/-- A run of turn ids, both ends inclusive. -/
abbrev Span : Type := NonemptyInterval ℕ

namespace Span

def single (id : ℕ) : Span := NonemptyInterval.pure id

def width (span : Span) : ℕ := span.snd - span.fst

/-- `turn 12`, or `turns 12–40`. -/
def shown (one many : String) (span : Span) : String :=
  if span.fst = span.snd then s!"{one} {span.fst}" else s!"{many} {span.fst}–{span.snd}"

def turns (span : Span) : String := span.shown "turn" "turns"

theorem width_mono (s t : Span) (h : s ≤ t) : s.width ≤ t.width := by
  have hl : t.fst ≤ s.fst := h.1
  have hr : s.snd ≤ t.snd := h.2
  simp only [width]
  omega

@[simp] theorem single_fst (id : ℕ) : (single id).fst = id := rfl

@[simp] theorem single_snd (id : ℕ) : (single id).snd = id := rfl

end Span

/-! ## Records -/

abbrev AgentId : Type := ℕ

inductive Voice
  | human
  | wakeup
  | peer
  | harness
deriving DecidableEq

inductive EditAuthority
  | model
  | harness
deriving DecidableEq

/-- Why the work in hand ends with no real assistant reply. -/
inductive QuiesceReason
  | cancelled
  | aborted
  | replied
deriving DecidableEq

/-- Who took a turn. -/
inductive Role
  | user
  | assistant
deriving DecidableEq

inductive TurnKind
  | own
  | «import»
  | inherited
deriving DecidableEq

structure ToolResult where
  id : String
  content : String
deriving DecidableEq

/-- The span it stands for and the model's note, `none` for the harness's own. -/
structure Eviction where
  span : Span
  note : Option String
  «by» : EditAuthority
deriving DecidableEq

/-- The session whose `record.jsonl` holds a turn's records, and their loci in it. -/
structure Pointer where
  source : AgentId
  loci : List Locus
deriving DecidableEq

/-- Whether an item is in the context, and what holds it if not. -/
inductive Location
  | resident
  | evicted (under : Span)
  | withdrawn
deriving DecidableEq

def Location.asStr : Location → String
  | .resident => "resident"
  | .evicted _ => "evicted"
  | .withdrawn => "withdrawn"

/-- One turn as a link carries it. -/
structure TurnRow where
  id : ℕ
  role : Role
  kind : TurnKind
  label : String
  bytes : ℕ
  location : Location
deriving DecidableEq

/-- A row of a link, and where its transcript copy lies. -/
structure Linked where
  row : TurnRow
  pointer : Pointer
deriving DecidableEq

inductive Transcript
  | system (text : String)
  | userPrompt (turn : ℕ) (text : String) (voice : Voice)
  | steering (text : String) (voice : Voice)
  | «import» (turn : ℕ) (message : ChatMessage)
  | inherited (turns : List Linked) (evictions : List Eviction)
  | assistantMessage (turn : ℕ) (message : ChatMessage) (pendingToolIds : List String)
      (stopReason : Option String)
  | toolResults (results : List ToolResult)
  | evicted (eviction : Eviction)
  | rewound (anchor : ℕ)
  | cleared
deriving DecidableEq

/-- What a session's log holds; only a transcript record is read here. -/
inductive Record
  | transcript (record : Transcript)
  | other

def chatMessages : Transcript → List ChatMessage
  | .userPrompt _ text _ => [.user text]
  | .steering text _ => [.user text]
  | .import _ message => [message]
  | .assistantMessage _ message _ _ => [message]
  | .toolResults results => results.map fun r => .ofToolResponse ⟨r.id, r.content⟩
  | .system _ => []
  | .evicted _ => []
  | .rewound _ => []
  | .cleared => []
  | .inherited _ _ => []

def residentMessages (records : List (Recorded Transcript)) : List ChatMessage :=
  records.flatMap fun recorded => chatMessages recorded.value

/-! ## Labels -/

def openingChars : ℕ := 50

/-- The first line without its terminator, `\n` or `\r\n`, clipped. -/
def openingLine (text : String) : String :=
  let line := text.toList.takeWhile (· ≠ '\n')
  let ended := line.length < text.toList.length
  let line := if ended ∧ line.getLast? = some '\r' then line.dropLast else line
  String.ofList (line.take openingChars)

/-- The `description` the first tool call to have one declared. -/
def messageIntent (message : ChatMessage) : String :=
  (message.content.findSome? fun
    | .toolCall call => call.description
    | _ => none).getD ""

/-- The message's opening line, or the intent a call declared where no prose opened it. -/
def messageLabel (message : ChatMessage) : String :=
  let line := openingLine (message.firstText.getD "")
  if line = "" then openingLine (messageIntent message) else line

/-- Only a user message opens a turn of the user's. -/
def messageRole (message : ChatMessage) : Role :=
  if message.role = .user then .user else .assistant

/-! ## The host -/

/-- What a context rests on outside itself: the session logs under the run's directory, the
name each goes by in messages, the length of a message's JSON text, and quoting. -/
class Host where
  record : AgentId → Locus → Except String Record
  recordName : AgentId → String
  jsonLen : ChatMessage → ℕ
  quoted : String → String

def messageBytes [Host] (messages : List ChatMessage) : ℕ :=
  (messages.map Host.jsonLen).sum

end Ral.Session
