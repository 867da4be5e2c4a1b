import Mathlib.Data.List.Basic
import Mathlib.Data.Nat.Notation
import Mathlib.Logic.Relation
import Ral.Eval.Flow

/-! # A bounded capture

Every byte is counted; a prefix up to the cap is kept, then at most one marker.
-/

namespace Ral.Worker

structure CapturedBytes where
  bytes : List UInt8
  total : ℕ
  cap : ℕ
  marker : List UInt8

def sinkBufferCap : ℕ := 16 * 1024 * 1024

def truncMarker : List UInt8 :=
  "\n[ral: buffer exceeded 16 MiB; remaining output dropped]\n".toList.map fun c => .ofNat c.toNat

namespace CapturedBytes

def limited (cap : ℕ) (marker : List UInt8) : CapturedBytes := ⟨[], 0, cap, marker⟩

def default : CapturedBytes := limited sinkBufferCap truncMarker

/-- Counts every byte. -/
def append (bs : List UInt8) (b : CapturedBytes) : CapturedBytes :=
  let kept :=
    if b.bytes.length ≤ b.cap then
      let keep := min bs.length (b.cap - b.bytes.length)
      b.bytes ++ bs.take keep ++ (if keep < bs.length then b.marker else [])
    else b.bytes
  { b with bytes := kept, total := b.total + bs.length }

def take (b : CapturedBytes) : List UInt8 × CapturedBytes := (b.bytes, { b with bytes := [] })

def retained (cap : ℕ) (marker written : List UInt8) : List UInt8 :=
  if written.length ≤ cap then written else written.take cap ++ marker

/-- Nothing has been taken yet. -/
def Holds (written : List UInt8) (b : CapturedBytes) : Prop :=
  b.bytes = retained b.cap b.marker written ∧ b.total = written.length

theorem holds_limited (cap : ℕ) (marker : List UInt8) : (limited cap marker).Holds [] :=
  ⟨by simp [limited, retained], rfl⟩

@[simp] theorem append_cap (bs : List UInt8) (b : CapturedBytes) : (b.append bs).cap = b.cap := rfl

@[simp] theorem append_marker (bs : List UInt8) (b : CapturedBytes) : (b.append bs).marker = b.marker := rfl

theorem Holds.append {written : List UInt8} {b : CapturedBytes} (h : b.Holds written) (bs : List UInt8) :
    (b.append bs).Holds (written ++ bs) := by
  refine ⟨?_, ?_⟩
  · show (b.append bs).bytes = retained b.cap b.marker (written ++ bs)
    unfold CapturedBytes.append
    simp only [h.1, retained, List.length_append]
    by_cases under : written.length ≤ b.cap
    · rw [if_pos under, if_pos under]
      by_cases fits : written.length + bs.length ≤ b.cap
      · rw [if_pos fits]
        have keep : min bs.length (b.cap - written.length) = bs.length := by omega
        simp [keep]
      · rw [if_neg fits]
        have keep : min bs.length (b.cap - written.length) = b.cap - written.length := by omega
        have short : b.cap - written.length < bs.length := by omega
        rw [keep, if_pos short, List.take_append, List.take_of_length_le under]
    · have past : ¬ written.length + bs.length ≤ b.cap := by omega
      have front : (written ++ bs).take b.cap = written.take b.cap :=
        List.take_append_of_le_length (by omega)
      rw [if_neg under, if_neg past, front]
      have kept : (written.take b.cap).length = b.cap := by
        rw [List.length_take]
        omega
      rw [List.length_append, kept]
      by_cases bare : b.marker = []
      · simp [bare]
      · have some : 0 < b.marker.length := List.length_pos_of_ne_nil bare
        rw [if_neg (by omega)]
  · show b.total + bs.length = _
    rw [h.2, List.length_append]

end CapturedBytes

/-! ## A worker's handle

One cell under one lock: running, then ready or stopping, then consumed. A claim and
a stop each take the lock for one step, save that a stop strikes the node before it
writes the cell; a publication drains the two buffers in the middle of its own, while
other threads may still write them. The permit to publish is the worker's alone.
-/

open Ral.Eval

structure Stamp where
  mono : ℕ
  wall : ℕ
  deriving DecidableEq

structure CompletedHandle where
  stdout : List UInt8
  stderr : List UInt8
  «end» : End

inductive HandleState
  | running
  | stopping
  | ended (stamp : Stamp) (result : Option CompletedHandle)

inductive Phase
  | running
  | stopping
  | ready
  | consumed
  deriving DecidableEq

def HandleState.phase : HandleState → Phase
  | running => .running
  | stopping => .stopping
  | ended _ (some _) => .ready
  | ended _ none => .consumed

/-- Who has the cell's lock across steps. -/
inductive Holder
  | free
  | stopping
  | publishing (e : End)
  | drainedOut (e : End) (stdout : List UInt8)
  | drained (e : End) (stdout stderr : List UInt8)

/-- The worker's sole capability to publish. -/
inductive Permit
  | held
  | finished
  | gone
  deriving DecidableEq

/-- How a claimant won. -/
inductive Claim
  | obtained (c : CompletedHandle)
  | discarded (c : CompletedHandle)
  | stopped

structure Handle where
  state : HandleState
  holder : Holder
  permit : Permit
  stdout : CapturedBytes
  stderr : CapturedBytes
  cancelled : Bool
  title : String
  written : List UInt8 × List UInt8
  before : Option (List UInt8 × List UInt8)
  completions : List CompletedHandle
  visited : List Phase
  claims : List Claim

namespace Handle

def fresh (title : String) : Handle :=
  ⟨.running, .free, .held, .default, .default, false, title, ([], []), none, [], [.running], []⟩

def enter (s : HandleState) (h : Handle) : Handle := { h with state := s, visited := h.visited ++ [s.phase] }

def abandonedText (h : Handle) : String := h.title ++ ": spawned thread panicked"

/-- Publication under the lock: nothing once a terminal state is there. -/
def publish (e : End) (h : Handle) : Handle :=
  match h.state with
  | .ended _ _ => h
  | _ => { h with holder := .publishing e, before := some (h.before.getD h.written) }

def claimReady (h : Handle) : Handle :=
  match h.state with
  | .ended stamp (some c) => { h.enter (.ended stamp none) with claims := h.claims ++ [.obtained c] }
  | _ => h

def claimAndStop (h : Handle) : Handle :=
  match h.state with
  | .running => { h with cancelled := true, holder := .stopping }
  | .stopping => h
  | .ended stamp (some c) => { h.enter (.ended stamp none) with claims := h.claims ++ [.discarded c] }
  | .ended _ none => h

/-- A ready result for a running worker; a claimed one drops it. -/
def installTerminal (c : CompletedHandle) (stamp : Stamp) (h : Handle) : Handle :=
  let result := match h.state with
    | .running => some c
    | _ => none
  { h.enter (.ended stamp result) with holder := .free, completions := h.completions ++ [c] }

/-- One step of one thread. -/
inductive Step : Handle → Handle → Prop
  | write (h : Handle) (bs : List UInt8) :
      Step h { h with stdout := h.stdout.append bs, written := (h.written.1 ++ bs, h.written.2) }
  | writeErr (h : Handle) (bs : List UInt8) :
      Step h { h with stderr := h.stderr.append bs, written := (h.written.1, h.written.2 ++ bs) }
  | strike (h : Handle) : Step h { h with cancelled := true }
  | claimReady (h : Handle) : h.holder = .free → Step h h.claimReady
  | claimAndStop (h : Handle) : h.holder = .free → Step h h.claimAndStop
  | stop (h : Handle) : h.holder = .stopping →
      Step h { h.enter .stopping with holder := .free, claims := h.claims ++ [.stopped] }
  | finish (h : Handle) (e : End) : h.permit = .held → h.holder = .free →
      Step h { h.publish e with permit := .finished }
  | drop (h : Handle) : h.permit ≠ .gone → h.holder = .free →
      Step h { h.publish (.panic h.abandonedText) with permit := .gone }
  | drainOut (h : Handle) (e : End) : h.holder = .publishing e →
      Step h { h with holder := .drainedOut e h.stdout.take.1, stdout := h.stdout.take.2 }
  | drainErr (h : Handle) (e : End) (out : List UInt8) : h.holder = .drainedOut e out →
      Step h { h with holder := .drained e out h.stderr.take.1, stderr := h.stderr.take.2 }
  | install (h : Handle) (e : End) (out err : List UInt8) (stamp : Stamp) : h.holder = .drained e out err →
      Step h (h.installTerminal ⟨out, err, e⟩ stamp)

abbrev Runs : Handle → Handle → Prop := Relation.ReflTransGen Step

/-- What an observer finds: its sample is taken under the lock. -/
inductive Sample : Handle → Phase → Prop
  | taken (h : Handle) : h.holder = .free → Sample h h.state.phase

end Handle

end Ral.Worker
