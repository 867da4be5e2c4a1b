import Ral.Core.Text

/-! # The bus transport

A queue that merges a token, a line of thinking or a state into its last entry where that
is of the same class and agent. A merged text past the cap sheds its oldest characters,
and what was shed is announced by a marker that follows the entry out.
-/

namespace Ral.Bus

open Ral.Text

def ceilCharBoundary : ℕ → List Char → List Char × List Char
  | 0, text => ([], text)
  | _, [] => ([], [])
  | n + 1, c :: text =>
    let (front, back) := ceilCharBoundary (n + 1 - c.utf8Size) text
    (c :: front, back)

theorem ceilCharBoundary_append (n : ℕ) (text : List Char) :
    (ceilCharBoundary n text).1 ++ (ceilCharBoundary n text).2 = text := by
  fun_induction ceilCharBoundary n text with
  | case1 => rfl
  | case2 => rfl
  | case3 n c text front back heq ih =>
    rw [heq] at ih
    rw [List.cons_append, ih]

theorem le_size_ceilCharBoundary {n : ℕ} {text : List Char} (h : n ≤ size text) :
    n ≤ size (ceilCharBoundary n text).1 := by
  fun_induction ceilCharBoundary n text with
  | case1 => exact Nat.zero_le _
  | case2 => exact h
  | case3 n c text front back heq ih =>
    rw [heq] at ih
    have hrest : n + 1 - c.utf8Size ≤ size front := ih (by rw [size_cons] at h; omega)
    rw [size_cons]
    omega

/-! ## Signals -/

abbrev AgentId : Type := ℕ

/-- What signals carry and the bus never looks at. -/
class Payloads where
  Commit : Type
  Born : Type
  AgentState : Type
  Card : Type

variable [Payloads]

open Payloads

inductive Transient
  | token (text : List Char)
  | thinking (text : List Char)
  | state (s : AgentState)
  | boundary
  | died (failures : List String)
  | stopReason (reason : String)
  | resources (card : Card)
  | pin (key : String) (card : Card)
  | unpin (key : String)
  | fault (text : String)
  | elided (text : String)

inductive Signal
  | commit (id : AgentId) (c : Commit)
  | synced (agent : AgentId) (through : ℕ)
  | born (id : AgentId) (b : Payloads.Born)
  | transient (id : AgentId) (t : Transient)

/-- The class a signal coalesces in. -/
inductive MergeClass
  | token
  | thinking
  | state
deriving DecidableEq

def mergeKey : Signal → Option (AgentId × MergeClass)
  | .transient id (.token _) => some (id, .token)
  | .transient id (.thinking _) => some (id, .thinking)
  | .transient id (.state _) => some (id, .state)
  | _ => none

def mergedText : Signal → Option (List Char)
  | .transient _ (.token s) => some s
  | .transient _ (.thinking s) => some s
  | _ => none

def withText (text : List Char) : Signal → Signal
  | .transient id (.token _) => .transient id (.token text)
  | .transient id (.thinking _) => .transient id (.thinking text)
  | s => s

def textLen (s : Signal) : ℕ := ((mergedText s).map size).getD 0

def MERGE_TEXT_CAP : ℕ := 256 * 1024

/-! ## The queue -/

structure QueueEntry where
  signal : Signal
  elided : ℕ

structure BusQueue where
  items : List QueueEntry
  markers : List Signal
  bytes : ℕ

def overflowNote (cls : MergeClass) (elided : ℕ) : String :=
  let label := match cls with
    | .token => "token"
    | .thinking => "thinking"
    | .state => "state"
  "presentation bus: elided " ++ toString elided ++ " B of coalesced " ++ label ++
    " output past the " ++ toString MERGE_TEXT_CAP ++ "-B cap"

/-- A text joins the one before it under the cap; a newer state replaces the older.
`none` is a panic. -/
def mergeInto (tail : QueueEntry) (incoming : Signal) (bytes : ℕ) : Option (QueueEntry × ℕ) :=
  match mergedText incoming with
  | some add => do
      let acc ← mergedText tail.signal
      let acc := acc ++ add
      let bytes := bytes + size add
      if MERGE_TEXT_CAP < size acc then
        let (front, back) := ceilCharBoundary (size acc - MERGE_TEXT_CAP) acc
        some (⟨withText back tail.signal, tail.elided + size front⟩, bytes - size front)
      else some (⟨withText acc tail.signal, tail.elided⟩, bytes)
  | none => some ({ tail with signal := incoming }, bytes)

namespace BusQueue

def new : BusQueue := ⟨[], [], 0⟩

def joins (tail incoming : Signal) : Bool := (mergeKey incoming).isSome && mergeKey tail == mergeKey incoming

def push (signal : Signal) (q : BusQueue) : Option BusQueue :=
  match q.items.getLast? with
  | some tail =>
    if joins tail.signal signal then do
      let (entry, bytes) ← mergeInto tail signal q.bytes
      some { q with items := q.items.dropLast ++ [entry], bytes }
    else some { q with items := q.items ++ [⟨signal, 0⟩], bytes := q.bytes + textLen signal }
  | none => some { q with items := q.items ++ [⟨signal, 0⟩], bytes := q.bytes + textLen signal }

/-- A pending marker first, else the front entry, whose own marker is for the next pop. -/
def popOne (q : BusQueue) : Option (Option Signal × BusQueue) :=
  match q.markers, q.items with
  | marker :: markers, _ => some (some marker, { q with markers })
  | [], [] => some (none, q)
  | [], entry :: items => do
      let bytes := q.bytes - textLen entry.signal
      if 0 < entry.elided then
        let (id, cls) ← mergeKey entry.signal
        let marker := Signal.transient id (.elided (overflowNote cls entry.elided))
        some (some entry.signal, ⟨items, [marker], bytes⟩)
      else some (some entry.signal, ⟨items, [], bytes⟩)

end BusQueue

/-! ## Runs of the queue -/

inductive Op
  | push (signal : Signal)
  | pop

def Op.step (q : BusQueue) : Op → Option (Option Signal × BusQueue)
  | .push signal => do
      let q ← q.push signal
      some (none, q)
  | .pop => q.popOne

def run (q : BusQueue) : List Op → Option (List (Option Signal) × BusQueue)
  | [] => some ([], q)
  | op :: ops => do
      let (out, q) ← op.step q
      let (outs, q) ← run q ops
      some (out :: outs, q)

/-! ## Texts of a signal -/

theorem mergedText_isSome {s : Signal} {k : AgentId × MergeClass} (h : mergeKey s = some k) :
    (mergedText s).isSome ↔ k.2 ≠ .state := by
  unfold mergeKey at h
  unfold mergedText
  split at h <;> cases h <;> simp

end Ral.Bus
