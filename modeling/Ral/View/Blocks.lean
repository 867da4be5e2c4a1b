import Mathlib.Data.Prod.Lex
import Ral.Mailbox.Control

/-! # The view fold

The blocks a scrollback draws of a log: the last so many of those its records opened, grown,
patched and cut. What a record is only drawn from is a parameter.
-/

namespace Ral.Record.Seq

def key (s : Seq) : ℕ ×ₗ ℕ := toLex (s.commit, s.index)

theorem key_injective : Function.Injective key := by
  intro s t h
  cases s
  cases t
  simpa [key] using h

instance : LinearOrder Seq := LinearOrder.lift' key key_injective

end Ral.Record.Seq

namespace Ral.View
open Ral.Data Ral.Record Ral.Mailbox
open Ral.Session (Voice Eviction Transcript)

/-! ## Records -/

/-- What the fold carries without reading: cards and diffs, failures, and token counts. -/
class Payloads where
  Change : Type
  Card : Type
  Done : Type
  SpanRow : Type
  Spent : Type
  ProviderError : Type
  stallCause : ProviderError → Option ProviderError
  Severed : Type
  code : Severed → String
  shown : Severed → String
  Usage : Type
  noUsage : Usage
  add : Usage → Usage → Usage
  measuredInput : Usage → Option ℕ

abbrev BlockId : Type := Seq

/-- What a result told the call it answers. -/
structure Verdict where
  lines : ℕ
  failed : Bool
deriving DecidableEq

/-- What a parent hears of a child's status, without its value. -/
inductive Settlement
  | replied
  | failed (reason : String)
  | stopped
deriving DecidableEq

section Vocabulary
variable [Payloads]
open Payloads (Change Card Done SpanRow Spent ProviderError Severed Usage)

inductive Display
  | thinking (text : String)
  | answer (text : String)
  | toolCall (tool cmd : String) (summary : Option String)
  | harnessCall (verb : String) (subject : Option String) (payload : String) (failed : Bool)
  | verdict (call : BlockId) (verdict : Verdict)
  | subagentDone (name : String) (outcome : Settlement) (elapsedMs : ℕ)
  | observation (value : FOValue)
  | change (change : Change)
  | card (card : Card)
  | done (id : Option ℕ) (title : String) (elapsedMs : Option ℕ) (outcome : Done)
  | context (rows : List SpanRow)

inductive Forensic
  | sessionEnded
  | sessionClosed
  | engineSevered (cause : Severed)
  | teardownFailed (failure : String)
  | turnStarted (turn : ℕ)
  | usageDelta (usage : Usage)
  | cancelled
  | error (text : String)
  | nudge (cause : String) (spent : Option Spent)
  | providerError (error : ProviderError)
  | retried (error : ProviderError)
  | systemNote (text : String)
  | harnessResult (text : String)
  | pin (key : String)
  | unpin (key : String)
  | reap (title cause : String)
  | prune (names : List String) (idleCalls : List ℕ)

inductive Record
  | transcript (record : Transcript)
  | control (record : Control)
  | display (record : Display)
  | forensic (record : Forensic)

/-! ## Blocks -/

inductive BlockKind
  | thinking (text : String)
  | prompt (text : String) (turn : Option ℕ)
  | answer (text : String)
  | toolCall (tool cmd : String) (summary : Option String) (verdict : Option Verdict)
  | harnessCall (verb : String) (subject : Option String) (payload : String) (failed : Bool)
  | subagentDone (name : String) (outcome : Settlement) (elapsedMs : ℕ)
  | observation (value : FOValue)
  | change (change : Change)
  | card (card : Card)
  | done (id : Option ℕ) (title : String) (elapsedMs : Option ℕ) (outcome : Done)
  | context (rows : List SpanRow)
  | cancelled
  | error (text : String)
  | nudge (cause : String) (spent : Option Spent)
  | providerError (error : ProviderError)
  | stalled (error : ProviderError)
  | systemNote (text : String)
  | harnessResult (text : String)
  | turn (id : ℕ)
  | evicted (eviction : Eviction)
  | rewound (anchor : ℕ)
  | cleared

structure Block where
  seq : Seq
  kind : BlockKind

/-- What one step did to the memo. -/
inductive Delta
  | opened (id : BlockId)
  | grew (id : BlockId)
  | patched (id : BlockId)
  | rewound (cut : Option BlockId)
  | cleared
  | quiet
deriving DecidableEq

def blocksWindow : ℕ := 1000

/-- `seen` is the place of the newest record folded. -/
structure Blocks where
  blocks : List Block
  usage : Usage
  lastInput : ℕ
  model : Option Model
  origin : Option Seq
  seen : Option Seq

/-- The block a run of prose or of reasoning grows to; no other kind continues its lane. -/
def BlockKind.joined : BlockKind → BlockKind → Option BlockKind
  | .answer text, .answer more => some (.answer (text ++ more))
  | .thinking text, .thinking more => some (.thinking (text ++ more))
  | _, _ => none

def Block.isTurnFrom (anchor : ℕ) (b : Block) : Bool :=
  match b.kind with
  | .prompt _ (some turn) => anchor ≤ turn
  | .turn id => anchor ≤ id
  | _ => false

def patch (call : BlockId) (verdict : Verdict) : List Block → Option (List Block)
  | [] => none
  | b :: rest =>
    if b.seq = call then
      match b.kind with
      | .toolCall tool cmd summary _ =>
        some (⟨b.seq, .toolCall tool cmd summary (some verdict)⟩ :: rest)
      | _ => none
    else (patch call verdict rest).map (b :: ·)

namespace Blocks

def default : Blocks := ⟨[], Payloads.noUsage, 0, none, none, none⟩

def rewindAt (memo : Blocks) (anchor : ℕ) : Option ℕ :=
  memo.blocks.findIdx? (Block.isTurnFrom anchor)

/-! ## The step

Every step is under a window, `none` where nothing is ever dropped. -/

variable (window : Option ℕ)

def evict : List Block → List Block
  | [] => []
  | b :: rest => if window.any (· < (b :: rest).length) then evict rest else b :: rest

def push (seq : Seq) (kind : BlockKind) (memo : Blocks) : Delta × Blocks :=
  match memo.blocks.getLast?.bind fun tail => (tail.kind.joined kind).map (Block.mk tail.seq) with
  | some tail => (.grew tail.seq, { memo with blocks := memo.blocks.dropLast ++ [tail] })
  | none => (.opened seq, { memo with
      origin := memo.origin.or (some seq)
      blocks := evict window (memo.blocks ++ [⟨seq, kind⟩]) })

/-- Attach a verdict to the call it names; one that is not in the window changes nothing. -/
def attachVerdict (call : BlockId) (verdict : Verdict) (memo : Blocks) : Delta × Blocks :=
  match patch call verdict memo.blocks with
  | some blocks => (.patched call, { memo with blocks })
  | none => (.quiet, memo)

def stepTranscript (seq : Seq) (p : Transcript) (memo : Blocks) : Delta × Blocks :=
  match p with
  | .userPrompt turn text voice =>
    if voice ≠ .harness then memo.push window seq (.prompt text (some turn)) else (.quiet, memo)
  | .steering text voice =>
    if voice ≠ .harness then memo.push window seq (.prompt text none) else (.quiet, memo)
  | .evicted eviction =>
    match eviction.by with
    | .harness => memo.push window seq (.evicted eviction)
    | .model => (.quiet, memo)
  | .rewound anchor =>
    let cutAt := memo.rewindAt anchor
    let cut := cutAt.bind fun i => (memo.blocks[i]?).map Block.seq
    let kept := { memo with blocks := memo.blocks.take (cutAt.getD memo.blocks.length) }
    (.rewound cut, (kept.push window seq (.rewound anchor)).2)
  | .cleared =>
    let cleared := { memo with blocks := [], origin := none, lastInput := 0 }
    (.cleared, (cleared.push window seq .cleared).2)
  | _ => (.quiet, memo)

def stepDisplay (seq : Seq) (d : Display) (memo : Blocks) : Delta × Blocks :=
  match d with
  | .thinking text => memo.push window seq (.thinking text)
  | .answer text => memo.push window seq (.answer text)
  | .toolCall tool cmd summary => memo.push window seq (.toolCall tool cmd summary none)
  | .harnessCall verb subject payload failed =>
    memo.push window seq (.harnessCall verb subject payload failed)
  | .verdict call verdict => memo.attachVerdict call verdict
  | .subagentDone name outcome elapsedMs =>
    memo.push window seq (.subagentDone name outcome elapsedMs)
  | .observation value => memo.push window seq (.observation value)
  | .change change => memo.push window seq (.change change)
  | .card card => memo.push window seq (.card card)
  | .done id title elapsedMs outcome => memo.push window seq (.done id title elapsedMs outcome)
  | .context rows => memo.push window seq (.context rows)

def stepControl (control : Control) (memo : Blocks) : Except Misfit (Delta × Blocks) :=
  match control, memo.model with
  | .sessionStarted started, _ => .ok (.quiet, { memo with model := some (.new started.selected) })
  | _, none => .ok (.quiet, memo)
  | control, some model =>
    (model.step control).map fun model => (.quiet, { memo with model := some model })

def stepForensic (seq : Seq) (f : Forensic) (memo : Blocks) : Delta × Blocks :=
  match f with
  | .usageDelta usage =>
    (.quiet, { memo with
      lastInput := (Payloads.measuredInput usage).getD memo.lastInput
      usage := Payloads.add memo.usage usage })
  | .cancelled => memo.push window seq .cancelled
  | .error text => memo.push window seq (.error text)
  | .nudge cause spent => memo.push window seq (.nudge cause spent)
  | .providerError error =>
    match Payloads.stallCause error with
    | some cause => memo.push window seq (.stalled cause)
    | none => memo.push window seq (.providerError error)
  | .engineSevered cause =>
    memo.push window seq
      (.systemNote s!"the ral engine was lost ({Payloads.code cause}): {Payloads.shown cause}")
  | .teardownFailed failure => memo.push window seq (.error failure)
  | .systemNote text => memo.push window seq (.systemNote text)
  | .harnessResult text => memo.push window seq (.harnessResult text)
  | .turnStarted turn => memo.push window seq (.turn turn)
  | _ => (.quiet, memo)

def stepRecord (seq : Seq) (record : Record) (memo : Blocks) : Except Misfit (Delta × Blocks) :=
  match record with
  | .transcript p => .ok (memo.stepTranscript window seq p)
  | .control control => memo.stepControl control
  | .display d => .ok (memo.stepDisplay window seq d)
  | .forensic f => .ok (memo.stepForensic window seq f)

def folded (memo : Blocks) (seq : Seq) : Bool := memo.seen.any fun folded => seq ≤ folded

/-- Fold a record in, reporting what it moved; one folded already moves nothing. -/
def tryStep (memo : Blocks) (record : Recorded Record) : Except Misfit (Delta × Blocks) :=
  let seq := record.locus.seq
  if memo.folded seq then .ok (.quiet, memo)
  else (memo.stepRecord window seq record.value).map fun (delta, memo) =>
    (delta, { memo with seen := some seq })

def replay (memo : Blocks) (log : List (Recorded Record)) : Except Misfit Blocks :=
  log.foldlM (fun memo record => (memo.tryStep window record).map Prod.snd) memo

end Blocks

end Vocabulary

end Ral.View
