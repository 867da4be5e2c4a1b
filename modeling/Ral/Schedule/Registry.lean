import Ral.Mailbox.Wakeups
import Ral.Schedule.Next

/-! # The registry of alarms

The owner's timers, one per booked label, beside the bookings its cell records. An alarm only
rings; what a ring is answered with is read off the timer, the booking and the clock.
-/

namespace Ral.Schedule
open Ral.Data
open Ral.Mailbox (ScheduleId Shared Txn Fault)

/-- Nanoseconds from the epoch. -/
abbrev Timestamp : Type := ℤ

/-- Nanoseconds. -/
abbrev Duration : Type := ℕ

/-- The zone the host is in, and an instant as it is read there. -/
class Clock extends Calendar where
  zone : Zone
  local' : Timestamp → String

def waitUntil (t now : Timestamp) : Duration := (t - now).toNat

/-- Whole milliseconds from the epoch, and zero before it. -/
def unixMs (t : Timestamp) : ℕ := (t.tdiv 1000000).toNat

/-- In the coarsest unit that divides. -/
def fmtDuration (d : Duration) : String :=
  let s := d / 1000000000
  if s % 86400 = 0 then toString (s / 86400) ++ "d"
  else if s % 3600 = 0 then toString (s / 3600) ++ "h"
  else if s % 60 = 0 then toString (s / 60) ++ "m"
  else toString s ++ "s"

/-! ## Triggers -/

inductive Trigger
  | cron (schedule : CronSchedule) (expr : String)
  | after (delay : Duration)
  /-- Armed by the harness, never asked for. -/
  | at' (instant : Timestamp)

namespace Trigger

/-- Whether it arms again after firing. -/
def isRecurring : Trigger → Bool
  | .cron _ _ => true
  | .after _ | .at' _ => false

def cron? : Trigger → Option String
  | .cron _ expr => some expr
  | .after _ | .at' _ => none

variable [Clock]

def nextAfter (now : Timestamp) : Trigger → Option Timestamp
  | .cron schedule _ => schedule.nextAfter Clock.zone now
  | .after delay => if now + delay ≤ Calendar.latest then some (now + delay) else none
  | .at' instant => some instant

def describe : Trigger → String
  | .cron _ expr => expr
  | .after delay => "after " ++ fmtDuration delay
  | .at' instant => "at " ++ Clock.local' instant

end Trigger

/-! ## Timers -/

structure Timer where
  id : ScheduleId
  trigger : Trigger

structure ScheduleRegistry where
  nextId : ℕ
  byLabel : SortedMap String Timer

namespace ScheduleRegistry

def new : ScheduleRegistry := ⟨0, SortedMap.empty⟩

def armed (r : ScheduleRegistry) (label : String) (trigger : Trigger) : ScheduleRegistry :=
  ⟨r.nextId + 1, r.byLabel.insert label ⟨r.nextId, trigger⟩⟩

def disarmed (r : ScheduleRegistry) (label : String) : ScheduleRegistry := { r with byLabel := r.byLabel.erase label }

def clear (r : ScheduleRegistry) : ScheduleRegistry := { r with byLabel := SortedMap.empty }

def rings (r : ScheduleRegistry) (label : String) (id : ScheduleId) : Option Timer :=
  (r.byLabel.get label).filter fun timer => timer.id = id

end ScheduleRegistry

/-! ## Transactions -/

/-- A wakeup as it was posted: for what instant, and when. -/
structure Firing where
  label : String
  id : ScheduleId
  due : ℕ
  now : Timestamp

/-- The cell and the registry, on the owner's thread. `fired` is what was posted so far, which
nothing reads. -/
structure Bench where
  shared : Shared
  registry : ScheduleRegistry
  fired : List Firing

abbrev Act (α : Type) : Type := Run Fault Bench α

/-- On the cell. -/
def txn {α : Type} (x : Txn α) : Act α := Run.zoom Bench.shared (fun shared b => { b with shared }) x

def withRegistry (f : ScheduleRegistry → ScheduleRegistry) : Act Unit :=
  Run.modify fun b => { b with registry := f b.registry }

/-- Why nothing was booked. -/
inductive Unbooked
  | never
  | borne (label : String)
  | unavailable

structure ScheduleReceipt where
  label : String
  nextIn : Duration

section
variable [Clock]

/-- The booking is committed before its first occurrence is armed. -/
def schedule (now : Timestamp) (trigger : Trigger) (prompt label : String) (ok : Bool) :
    Act (Except Unbooked ScheduleReceipt) :=
  match trigger.nextAfter now with
  | none => pure (.error .never)
  | some next => do
      match ← Run.attempt (txn (Mailbox.schedule label ⟨prompt, trigger.describe, trigger.cron?, unixMs next, 0⟩ ok)) with
      | .error .panicked => Run.fail .panicked
      | .error _ => pure (.error .unavailable)
      | .ok false => pure (.error (.borne label))
      | .ok true => do
          withRegistry fun r => r.armed label trigger
          pure (.ok ⟨label, waitUntil next now⟩)

def unschedule (label : String) (ok : Bool) : Act Bool := do
  let removed ← txn (Mailbox.unschedule label ok)
  withRegistry fun r => r.disarmed label
  pure removed

variable [Mailbox.Wording]

/-- One ring answered: too early it is armed again, and a timer whose booking is gone is dropped. -/
def answer (now : Timestamp) (label : String) (id : ScheduleId) (ok : Bool) : Act Unit := do
  let b ← Run.get
  match b.registry.rings label id with
  | none => pure ()
  | some timer =>
    match b.shared.schedules.get label with
    | none => withRegistry fun r => r.disarmed label
    | some booking =>
      if unixMs now < booking.nextUnixMs then pure ()
      else do
        let next := if timer.trigger.isRecurring then (timer.trigger.nextAfter now).map unixMs else none
        let text := "[scheduled '" ++ label ++ "' · " ++ booking.trigger ++ "] " ++ booking.prompt
        let _ ← txn (Mailbox.fire label id next text ok)
        Run.modify fun b' => { b' with
          fired := b'.fired ++ (Mailbox.gained b.shared b'.shared).map fun id => ⟨label, id, booking.nextUnixMs, now⟩ }
        match next with
        | some _ => pure ()
        | none => withRegistry fun r => r.disarmed label

/-- The rings of a pass, in turn; the first failure ends it. -/
def answers (now : Timestamp) (device : String → Bool) : List (String × ScheduleId) → Act Unit
  | [] => pure ()
  | (label, id) :: rest => do
      answer now label id (device label)
      answers now device rest

/-- The cell's rings answered on the owner's thread. -/
def fire (now : Timestamp) (device : String → Bool) : Act Unit := do
  let rung ← txn Mailbox.takeRung
  answers now device rung.entries

end

end Ral.Schedule
