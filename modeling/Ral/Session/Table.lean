import Mathlib.Data.List.Induction
import Mathlib.Data.List.Perm.Subperm
import Mathlib.Data.List.Sort
import Mathlib.Data.Prod.Lex
import Ral.Core.Laminar
import Ral.Session.Protocol

/-! # The sequencing automaton

Where the protocol rests and what may follow.
-/

namespace Ral.Session
open Ral.Record (Recorded)

inductive State
  | readyForUser
  | awaitingAssistantAfterUser
  | awaitingToolResults (pendingIds : List String)
  | awaitingAssistantAfterToolResults
deriving DecidableEq

namespace State

/-- The ids whose results are awaited. -/
def pending : State → List String
  | .awaitingToolResults ids => ids
  | _ => []

/-- Only outstanding tool calls hold a record that opens or extends a turn. -/
def admitsNewTurn : State → Bool
  | .awaitingToolResults _ => false
  | _ => true

def awaitsAssistant : State → Bool
  | .awaitingAssistantAfterUser => true
  | .awaitingAssistantAfterToolResults => true
  | _ => false

/-- Completes "the session is …". -/
def waitingFor : State → String
  | .readyForUser => "ready for your next prompt"
  | .awaitingAssistantAfterUser => "waiting for the model's reply"
  | .awaitingToolResults ids =>
    if ids.length = 1 then "waiting for 1 tool result"
    else s!"waiting for {ids.length} tool results"
  | .awaitingAssistantAfterToolResults => "waiting for the model to read the tool results"

def advance (state : State) : Transcript → State
  | .userPrompt _ _ _ => .awaitingAssistantAfterUser
  | .steering _ _ => .awaitingAssistantAfterUser
  | .assistantMessage _ _ pendingToolIds _ =>
    if pendingToolIds = [] then .readyForUser else .awaitingToolResults pendingToolIds
  | .toolResults _ => .awaitingAssistantAfterToolResults
  | .system _ => state
  | .import _ _ => state
  | .evicted _ => state
  | .rewound _ => state
  | .cleared => state
  | .inherited _ _ => state

end State

def State.after (state : State) (records : List (Recorded Transcript)) : State :=
  records.foldl (fun state record => state.advance record.value) state

def resting (records : List (Recorded Transcript)) : State := State.readyForUser.after records

/-! ## Results -/

/-- Every result answers a pending id and no id is answered twice. -/
def checkResultIds (expected : List String) : List String → List ToolResult → Except String Unit
  | _, [] => .ok ()
  | seen, r :: results =>
    if r.id ∉ expected then .error s!"unknown tool result id {r.id}"
    else if r.id ∈ seen then .error s!"duplicate tool result id {r.id}"
    else checkResultIds expected (r.id :: seen) results

def validateResultIds (pendingIds : List String) (results : List ToolResult) :
    Except String Unit :=
  if pendingIds.length ≠ results.length then
    .error s!"tool result count mismatch: expected {pendingIds.length}, got {results.length}"
  else checkResultIds pendingIds [] results

/-- Sequencing legality. -/
def admissible (state : State) : Transcript → Bool
  | .userPrompt _ _ _ => state.admitsNewTurn
  | .steering _ _ => state.admitsNewTurn
  | .import _ _ => state.admitsNewTurn
  | .assistantMessage _ message _ _ => message.role = .assistant && state.awaitsAssistant
  | .toolResults results =>
    match state with
    | .awaitingToolResults pendingIds => (validateResultIds pendingIds results).isOk
    | _ => false
  | .rewound _ => state.admitsNewTurn
  | .cleared => state.admitsNewTurn
  | .system _ => true
  | .evicted _ => true
  | .inherited _ _ => true

/-- The length of the longest prefix that owes no tool result. -/
def admissiblePrefix (records : List (Recorded Transcript)) : ℕ :=
  (records.zipIdx.foldl
    (fun (acc : State × ℕ) record =>
      let state := acc.1.advance record.1.value
      (state, if state.admitsNewTurn then record.2 + 1 else acc.2))
    (.readyForUser, 0)).2

theorem after_concat (state : State) (records : List (Recorded Transcript))
    (r : Recorded Transcript) :
    state.after (records ++ [r]) = (state.after records).advance r.value := by
  simp [State.after]

theorem checkResultIds_ok {expected seen : List String} {results : List ToolResult} :
    (checkResultIds expected seen results).isOk ↔
      (∀ r ∈ results, r.id ∈ expected ∧ r.id ∉ seen) ∧ (results.map ToolResult.id).Nodup := by
  induction results generalizing seen with
  | nil => simp [checkResultIds, Except.isOk, Except.toBool]
  | cons r results ih =>
    unfold checkResultIds
    by_cases he : r.id ∈ expected
    · by_cases hs : r.id ∈ seen
      · simp [he, hs, Except.isOk, Except.toBool]
      · simp only [he, hs, not_true_eq_false, if_false, ih, List.mem_cons, List.map_cons,
          List.nodup_cons, List.mem_map, not_or]
        grind
    · simp [he, Except.isOk, Except.toBool]

/-- A batch is answered by the pending ids in some order, none of them twice. -/
theorem validateResultIds_ok {pendingIds : List String} {results : List ToolResult} :
    (validateResultIds pendingIds results).isOk ↔
      pendingIds.Nodup ∧ (results.map ToolResult.id).Perm pendingIds := by
  unfold validateResultIds
  by_cases hlen : pendingIds.length = results.length
  · simp only [hlen, ne_eq, not_true_eq_false, if_false]
    rw [checkResultIds_ok]
    constructor
    · intro h
      have hsub : (results.map ToolResult.id) ⊆ pendingIds := by
        intro id hid
        obtain ⟨r, hr, rfl⟩ := List.mem_map.mp hid
        exact (h.1 r hr).1
      have hperm : (results.map ToolResult.id).Perm pendingIds := by
        apply (List.Nodup.subperm h.2 hsub).perm_of_length_le
        simp [hlen]
      exact ⟨hperm.nodup h.2, hperm⟩
    · intro h
      constructor
      · intro r hr
        have hid : r.id ∈ results.map ToolResult.id := List.mem_map_of_mem hr
        exact ⟨h.2.subset hid, by simp⟩
      · exact h.2.symm.nodup h.1
  · simp only [ne_eq, hlen, not_false_eq_true, if_true, Except.isOk, Except.toBool,
      Bool.false_eq_true, false_iff]
    intro h
    apply hlen
    simpa using h.2.length_eq.symm

/-! ## The admissible prefix -/

theorem admissiblePrefix_nil : admissiblePrefix [] = 0 := rfl

theorem admissiblePrefix_concat (records : List (Recorded Transcript)) (r : Recorded Transcript) :
    admissiblePrefix (records ++ [r]) =
      if (resting (records ++ [r])).admitsNewTurn then records.length + 1
      else admissiblePrefix records := by
  have hfold : ∀ (acc : State × ℕ) (rs : List (Recorded Transcript)) (k : ℕ),
      ((rs.zipIdx k).foldl (fun (acc : State × ℕ) record =>
        let state := acc.1.advance record.1.value
        (state, if state.admitsNewTurn then record.2 + 1 else acc.2)) acc).1 =
      acc.1.after rs := by
    intro acc rs
    induction rs generalizing acc with
    | nil => intro k; rfl
    | cons r rs ih =>
      intro k
      rw [List.zipIdx_cons, List.foldl_cons, ih]
      rfl
  unfold admissiblePrefix
  rw [List.zipIdx_append, List.foldl_append]
  simp only [List.zipIdx_singleton, List.foldl_cons, List.foldl_nil, hfold, resting, after_concat,
    Nat.zero_add]

/-- The prefix a fork reads back: what is left once a batch cut short is dropped. -/
def cut (records : List (Recorded Transcript)) : List (Recorded Transcript) :=
  records.take (admissiblePrefix records)

theorem admissiblePrefix_le (records : List (Recorded Transcript)) :
    admissiblePrefix records ≤ records.length := by
  induction records using List.reverseRecOn with
  | nil => simp [admissiblePrefix_nil]
  | append_singleton records r ih =>
    rw [admissiblePrefix_concat, List.length_append, List.length_singleton]
    split <;> omega

theorem cut_concat (records : List (Recorded Transcript)) (r : Recorded Transcript) :
    cut (records ++ [r]) =
      if (resting (records ++ [r])).admitsNewTurn then records ++ [r] else cut records := by
  unfold cut
  rw [admissiblePrefix_concat]
  split
  · exact List.take_of_length_le (by simp)
  · rw [List.take_append_of_le_length (admissiblePrefix_le records)]

theorem resting_cut (records : List (Recorded Transcript)) :
    (resting (cut records)).admitsNewTurn := by
  induction records using List.reverseRecOn with
  | nil => rfl
  | append_singleton records r ih =>
    rw [cut_concat]
    split
    · assumption
    · exact ih

theorem cut_of_closed {records : List (Recorded Transcript)}
    (h : (resting records).admitsNewTurn) : cut records = records := by
  induction records using List.reverseRecOn with
  | nil => rfl
  | append_singleton records r _ => rw [cut_concat, if_pos h]

/-! ## Quiescing -/

def unrunToolCall : String := "[EXARCH // No result: the deliberation ended before this call ran.]"

/-- Answers to the calls outstanding. -/
def unrunResults (pendingIds : List String) : Transcript :=
  .toolResults (pendingIds.map fun id => ⟨id, unrunToolCall⟩)

/-- The close of a deliberation that ended on a reply. -/
def capstone (turn : ℕ) : Transcript :=
  .assistantMessage turn (.assistant "[EXARCH // Deliberation ended: replied to parent.]") []
    (some "replied")

/-- The records a quiesce still owes: an answer to every outstanding call, and a capstone for
work that ended on a reply. -/
def quiesceRecords (state : State) (reason : QuiesceReason) (turn : ℕ) : List Transcript :=
  let answers := match state with
    | .awaitingToolResults pendingIds => [unrunResults pendingIds]
    | _ => []
  let state := answers.foldl State.advance state
  answers ++ if reason = .replied ∧ state ≠ .readyForUser then [capstone turn] else []

/-! ## The turn table

The turns, and the evictions covering them. A turn or an eviction leaves the context
only by a stamp that says where it went, and neither is ever removed.
-/

open Ral.Record (Locus)

/-- Where one turn's records are. `origin` is where a turn first recorded in an ancestor's file
has its copy. -/
inductive Body
  | here (records : List (Recorded Transcript)) (origin : Option Pointer)
  | evicted (pointer : Pointer) (under : Span)
  | withdrawn (pointer : Pointer)

/-- The atom an eviction addresses. -/
structure Turn where
  id : ℕ
  role : Role
  kind : TurnKind
  label : String
  bytes : ℕ
  body : Body

namespace Location

def isResident : Location → Bool
  | .resident => true
  | _ => false

def isWithdrawn : Location → Bool
  | .withdrawn => true
  | _ => false

/-- The stamp of an item departing under `under`, or withdrawn when `none`. One already
departed keeps its stamp unless this is a withdrawal. -/
def depart (under : Option Span) (was : Location) : Location :=
  match under with
  | none => .withdrawn
  | some span => if was.isResident then .evicted span else was

end Location

namespace Turn

def isUser (t : Turn) : Bool := t.role = .user

def location (t : Turn) : Location :=
  match t.body with
  | .here _ _ => .resident
  | .evicted _ under => .evicted under
  | .withdrawn _ => .withdrawn

def isResident (t : Turn) : Bool := t.location.isResident

def isWithdrawn (t : Turn) : Bool := t.location.isWithdrawn

def records (t : Turn) : List (Recorded Transcript) :=
  match t.body with
  | .here records _ => records
  | .evicted _ _ => []
  | .withdrawn _ => []

/-- Where its transcript copy lies: the origin or the address it left, else `source`'s own log
at the loci its records were measured at. -/
def pointer (source : AgentId) (t : Turn) : Pointer :=
  match t.body with
  | .here records origin => origin.getD ⟨source, records.map Recorded.locus⟩
  | .evicted pointer _ => pointer
  | .withdrawn pointer => pointer

/-- Leave under `under`, or be withdrawn when `none`; the address is kept. -/
def depart (source : AgentId) (under : Option Span) (t : Turn) : Turn :=
  match t.body, under with
  | .here _ _, some span => { t with body := .evicted (t.pointer source) span }
  | .evicted _ _, some _ => t
  | .withdrawn _, some _ => t
  | _, none => { t with body := .withdrawn (t.pointer source) }

@[simp] theorem depart_id (source : AgentId) (under : Option Span) (t : Turn) :
    (t.depart source under).id = t.id := by
  unfold depart
  split <;> rfl

@[simp] theorem depart_role (source : AgentId) (under : Option Span) (t : Turn) :
    (t.depart source under).role = t.role := by
  unfold depart
  split <;> rfl

@[simp] theorem depart_location (source : AgentId) (under : Option Span) (t : Turn) :
    (t.depart source under).location = t.location.depart under := by
  cases t with
  | mk id role kind label bytes body => cases body <;> cases under <;> rfl

theorem isResident_eq {t : Turn} : t.isResident = true ↔ t.location = .resident := by
  unfold isResident Location.isResident
  cases t.location <;> simp

theorem isWithdrawn_eq {t : Turn} : t.isWithdrawn = true ↔ t.location = .withdrawn := by
  unfold isWithdrawn Location.isWithdrawn
  cases t.location <;> simp

theorem here_of_resident {t : Turn} (h : t.location = .resident) :
    ∃ records origin, t.body = .here records origin := by
  cases hb : t.body with
  | here records origin => exact ⟨records, origin, rfl⟩
  | evicted pointer under => simp [location, hb] at h
  | withdrawn pointer => simp [location, hb] at h

end Turn

/-! ## Holders -/

/-- What holds a departed item that is not withdrawn: the smallest of the later spans that
contain it. -/
def holder (span : Span) (later : List Span) : Option Span :=
  Intervals.least Span.width span later

/-- The location of an item that is not withdrawn, under what holds it. -/
def heldBy (span : Span) (later : List Span) : Location :=
  match holder span later with
  | none => .resident
  | some under => .evicted under

/-! ## The table -/

/-- `evictions` has one entry per eviction, in creation order. -/
structure Table where
  source : AgentId
  turns : List Turn
  evictions : List (Eviction × Location)

/-- One item of the frontier or the index. -/
inductive Item
  | turn (t : Turn)
  | eviction (e : Eviction × Location)

namespace Item

def span : Item → Span
  | .turn t => .single t.id
  | .eviction e => e.1.span

def location : Item → Location
  | .turn t => t.location
  | .eviction e => e.2

def isResident (i : Item) : Bool := i.location.isResident

def isTurn : Item → Bool
  | .turn _ => true
  | .eviction _ => false

/-- By first turn, a wider span first, the turn last. -/
def key (i : Item) : ℕ ×ₗ ℕᵒᵈ ×ₗ Bool :=
  toLex (i.span.fst, toLex (OrderDual.toDual i.span.snd, i.isTurn))

end Item

namespace Table

def new (source : AgentId) : Table := ⟨source, [], []⟩

def spans (table : Table) : List Span := table.evictions.map fun e => e.1.span

def turn (table : Table) (id : ℕ) : Option Turn := table.turns.find? fun t => t.id = id

/-- The widest eviction `id` lies strictly inside of, past its first turn; the last of equals. -/
def straddling (table : Table) (id : ℕ) : Option Eviction :=
  (((table.evictions.map Prod.fst).filter fun e =>
    decide (e.span.fst < id ∧ id ≤ e.span.snd)).reverse).argmax fun e => e.span.width

/-- Every turn and every eviction, in the order of `Item.key`, a later eviction first. -/
def items (table : Table) : List Item :=
  (table.evictions.reverse.map Item.eviction ++ table.turns.map Item.turn).insertionSort
    fun a b => a.key ≤ b.key

def frontier (table : Table) : List Item := table.items.filter Item.isResident

def openTurn (table : Table) (id : ℕ) (role : Role) (kind : TurnKind) (label : String) : Table :=
  { table with turns := table.turns ++ [⟨id, role, kind, label, 0, .here [] none⟩] }

/-- Add a record and its weight to the turn at an index, `none` where that turn has left. -/
def absorb (table : Table) (index : ℕ) (record : Recorded Transcript) (bytes : ℕ) :
    Option Table :=
  match table.turns[index]? with
  | some ⟨id, role, kind, label, weight, .here records origin⟩ =>
    let weight := saturatingAdd weight bytes
    let t : Turn := ⟨id, role, kind, label, weight, .here (records ++ [record]) origin⟩
    some { table with turns := table.turns.set index t }
  | _ => none

/-- Every item `leaving` names departs under `under`, or is withdrawn when `none`. -/
def depart (table : Table) (leaving : Span → Prop) [DecidablePred leaving]
    (under : Option Span) : Table :=
  { table with
    evictions := table.evictions.map fun e =>
      if leaving e.1.span then (e.1, e.2.depart under) else e
    turns := table.turns.map fun t =>
      if leaving (.single t.id) then t.depart table.source under else t }

def withdraw (table : Table) (lo : ℕ) : Table :=
  table.depart (fun span => lo ≤ span.fst) none

/-- The eviction stands for its span: every resident item within it departs under it. -/
def evict (table : Table) (eviction : Eviction) : Table :=
  let left := table.depart (fun span => span ≤ eviction.span) (some eviction.span)
  { left with evictions := left.evictions ++ [(eviction, .resident)] }

/-! ## Links -/

section Links
variable [Host]

/-- A link's rows as turns, each resident one holding the next seed; `none` where the seeds run
out. -/
def installTurns : List Linked → List (List (Recorded Transcript)) → Option (List Turn)
  | [], _ => some []
  | ⟨row, pointer⟩ :: rows, seeds =>
    let turn bytes body : Turn := ⟨row.id, row.role, row.kind, row.label, bytes, body⟩
    match row.location, seeds with
    | .resident, records :: seeds =>
      (installTurns rows seeds).map fun turns =>
        turn (messageBytes (residentMessages records)) (.here records (some pointer)) :: turns
    | .resident, [] => none
    | .evicted under, seeds =>
      (installTurns rows seeds).map fun turns => turn row.bytes (.evicted pointer under) :: turns
    | .withdrawn, seeds =>
      (installTurns rows seeds).map fun turns => turn row.bytes (.withdrawn pointer) :: turns

/-- A link's evictions, each withdrawn with the turn it opens at, else under its holder. -/
def installEvictions (turn : ℕ → Option Turn) : List Eviction → List (Eviction × Location)
  | [] => []
  | e :: later =>
    let location :=
      if (turn e.span.fst).any Turn.isWithdrawn then Location.withdrawn
      else heldBy e.span (later.map Eviction.span)
    (e, location) :: installEvictions turn later

def install (table : Table) (turns : List Linked) (evictions : List Eviction)
    (seeds : List (List (Recorded Transcript))) : Option Table :=
  (installTurns turns seeds).map fun turns =>
    let table := { table with turns := turns }
    { table with evictions := installEvictions table.turn evictions }

def readAt (source : AgentId) (locus : Locus) : Except String Transcript :=
  match Host.record source locus with
  | .ok (.transcript record) => .ok record
  | .ok .other =>
    .error ("a pointer named a non-transcript record: a turn's address no longer " ++
      "names the records it was measured over")
  | .error e => .error e

def readPointer (pointer : Pointer) : Except String (List (Recorded Transcript)) :=
  pointer.loci.mapM fun locus => (readAt pointer.source locus).map fun record => ⟨locus, record⟩

end Links

end Table

end Ral.Session
