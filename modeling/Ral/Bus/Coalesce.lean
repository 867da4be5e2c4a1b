import Mathlib.Data.List.Chain
import Ral.Bus.Channel

/-! # The coalescing queue refines a plain one

The plain queue keeps every signal sent. What the bus hands over for one of its entries
is the longest run of signals of one class and agent at the front of the plain queue:
texts concatenated, states collapsed to the last, and what was shed counted by a marker.
-/

namespace Ral.Bus

open Ral.Text

variable [Payloads]

open Payloads

/-! ## The plain queue -/

/-- The two classes of text. -/
inductive Voice
  | token
  | thinking

def Voice.say (id : AgentId) (text : List Char) : Voice → Signal
  | token => .transient id (.token text)
  | thinking => .transient id (.thinking text)

def Voice.mergeClass : Voice → MergeClass
  | token => .token
  | thinking => .thinking

/-- The signal that stands for a run, and how many bytes of the run it does not carry. -/
inductive Renders : List Signal → Signal → ℕ → Prop
  | reserved (s : Signal) : mergeKey s = none → Renders [s] s 0
  | states (id : AgentId) (older : List AgentState) (s : AgentState) :
      Renders ((older ++ [s]).map fun s => .transient id (.state s)) (.transient id (.state s)) 0
  /-- The shed text is the front of the run, and shed only past the cap. -/
  | texts (voice : Voice) (id : AgentId) (texts : List (List Char)) (shed kept : List Char) :
      texts ≠ [] → texts.flatten = shed ++ kept →
      (shed ≠ [] → MERGE_TEXT_CAP < size texts.flatten ∧ size kept ≤ MERGE_TEXT_CAP) →
      Renders (texts.map fun text => voice.say id text) (voice.say id kept) (size shed)

def markers (s : Signal) (n : ℕ) : List Signal :=
  if 0 < n then
    (mergeKey s).toList.map fun key => .transient key.1 (.elided (overflowNote key.2 n))
  else []

/-- The longest run at the front of a queue, and what follows it. -/
def leading : List Signal → List Signal × List Signal
  | [] => ([], [])
  | s :: rest => (s :: rest.takeWhile (BusQueue.joins s), rest.dropWhile (BusQueue.joins s))

/-- Every signal sent and not yet handed over, and a marker still due. -/
structure Plain where
  waiting : List Signal
  owed : List Signal

inductive Plain.Step : Plain → Op → Option Signal → Plain → Prop
  | push (p : Plain) (s : Signal) : Step p (.push s) none { p with waiting := p.waiting ++ [s] }
  | marker (waiting owed : List Signal) (m : Signal) : Step ⟨waiting, m :: owed⟩ .pop (some m) ⟨waiting, owed⟩
  | idle : Step ⟨[], []⟩ .pop none ⟨[], []⟩
  | take {waiting : List Signal} {s : Signal} {n : ℕ} : Renders (leading waiting).1 s n →
      Step ⟨waiting, []⟩ .pop (some s) ⟨(leading waiting).2, markers s n⟩

inductive Plain.Runs : Plain → List Op → List (Option Signal) → Plain → Prop
  | nil (p : Plain) : Runs p [] [] p
  | cons {p p' p'' : Plain} {op : Op} {ops : List Op} {out : Option Signal} {outs : List (Option Signal)} :
      p.Step op out p' → Runs p' ops outs p'' → Runs p (op :: ops) (out :: outs) p''

/-! ## Runs of one key -/

theorem mergeKey_say (voice : Voice) (id : AgentId) (text : List Char) :
    mergeKey (voice.say id text) = some (id, voice.mergeClass) := by
  cases voice <;> rfl

theorem mergedText_say (voice : Voice) (id : AgentId) (text : List Char) :
    mergedText (voice.say id text) = some text := by
  cases voice <;> rfl

theorem withText_say (voice : Voice) (id : AgentId) (text new : List Char) :
    withText new (voice.say id text) = voice.say id new := by
  cases voice <;> rfl

theorem textLen_say (voice : Voice) (id : AgentId) (text : List Char) :
    textLen (voice.say id text) = size text := by
  cases voice <;> rfl

theorem say_of_mergedText {s : Signal} {text : List Char} (h : mergedText s = some text) :
    ∃ (voice : Voice) (id : AgentId), s = voice.say id text := by
  unfold mergedText at h
  split at h
  · cases h
    exact ⟨.token, _, rfl⟩
  · cases h
    exact ⟨.thinking, _, rfl⟩
  · cases h

theorem state_of_mergeKey {s : Signal} {key : AgentId × MergeClass} (hkey : mergeKey s = some key)
    (htext : mergedText s = none) : ∃ st, s = .transient key.1 (.state st) ∧ key.2 = .state := by
  unfold mergeKey at hkey
  split at hkey
  · cases htext
  · cases htext
  · cases hkey
    exact ⟨_, rfl, rfl⟩
  · cases hkey

theorem joins_iff {a b : Signal} :
    BusQueue.joins a b = true ↔ ∃ key, mergeKey a = some key ∧ mergeKey b = some key := by
  unfold BusQueue.joins
  rw [Bool.and_eq_true, beq_iff_eq, Option.isSome_iff_exists]
  constructor
  · intro ⟨⟨key, hb⟩, heq⟩
    exact ⟨key, heq.trans hb, hb⟩
  · intro ⟨key, ha, hb⟩
    exact ⟨⟨key, hb⟩, ha.trans hb.symm⟩

theorem Renders.ne_nil {run : List Signal} {s : Signal} {n : ℕ} (h : Renders run s n) : run ≠ [] := by
  cases h with
  | reserved => simp
  | states => simp
  | texts _ _ _ _ _ hne => simpa using hne

theorem Renders.mergeKey_eq {run : List Signal} {s x : Signal} {n : ℕ} (h : Renders run s n) (hx : x ∈ run) :
    mergeKey x = mergeKey s := by
  cases h with
  | reserved => rw [List.mem_singleton.mp hx]
  | states id older st =>
    obtain ⟨_, -, rfl⟩ := List.mem_map.mp hx
    rfl
  | texts voice id texts shed kept =>
    obtain ⟨text, -, rfl⟩ := List.mem_map.mp hx
    rw [mergeKey_say, mergeKey_say]

theorem Renders.of_reserved {run : List Signal} {s : Signal} {n : ℕ} (h : Renders run s n)
    (hkey : mergeKey s = none) : run = [s] := by
  cases h with
  | reserved => rfl
  | states => cases hkey
  | texts voice =>
    rw [mergeKey_say] at hkey
    cases hkey

theorem Renders.elided_key {run : List Signal} {s : Signal} {n : ℕ} (h : Renders run s n) (hn : 0 < n) :
    ∃ key, mergeKey s = some key := by
  cases h with
  | reserved => omega
  | states => omega
  | texts voice id _ _ kept => exact ⟨_, mergeKey_say voice id kept⟩

/-- A run followed by what does not join it is the longest at the front. -/
theorem leading_append {run rest : List Signal} {s : Signal} {n : ℕ} (h : Renders run s n)
    (hrest : ∀ x ∈ rest.head?, BusQueue.joins s x = false) : leading (run ++ rest) = (run, rest) := by
  obtain ⟨x, run, rfl⟩ := List.exists_cons_of_ne_nil h.ne_nil
  have hx : mergeKey x = mergeKey s := h.mergeKey_eq List.mem_cons_self
  have hsame (y : Signal) : BusQueue.joins x y = BusQueue.joins s y := by
    unfold BusQueue.joins
    rw [hx]
  have hstop : rest.takeWhile (BusQueue.joins x) = [] ∧ rest.dropWhile (BusQueue.joins x) = rest := by
    cases rest with
    | nil => exact ⟨rfl, rfl⟩
    | cons y rest =>
      have hy : BusQueue.joins x y = false := (hsame y).trans (hrest y rfl)
      simp [hy]
  have hall : ∀ y ∈ run, BusQueue.joins x y = true := by
    intro y hy
    have hkey := h.mergeKey_eq (List.mem_cons_of_mem _ hy)
    cases hs : mergeKey s with
    | none =>
      have halone := h.of_reserved hs
      rw [(List.cons.inj halone).2] at hy
      cases hy
    | some key => exact joins_iff.mpr ⟨key, hx.trans hs, hkey.trans hs⟩
  rw [List.cons_append, leading, List.takeWhile_append_of_pos hall, List.dropWhile_append_of_pos hall,
    hstop.1, hstop.2, List.append_nil]

/-! ## One entry -/

/-- Joining a signal to an entry joins it to the run the entry stands for. -/
theorem renders_mergeInto {tail : QueueEntry} {signal : Signal} {run : List Signal} {bytes : ℕ}
    (h : Renders run tail.signal tail.elided) (hjoins : BusQueue.joins tail.signal signal = true)
    (hbytes : textLen tail.signal ≤ bytes) :
    ∃ entry bytes', mergeInto tail signal bytes = some (entry, bytes') ∧
      Renders (run ++ [signal]) entry.signal entry.elided ∧
      mergeKey entry.signal = mergeKey tail.signal ∧
      bytes' + textLen tail.signal = bytes + textLen entry.signal := by
  obtain ⟨old, elided⟩ := tail
  dsimp only at h hjoins hbytes ⊢
  obtain ⟨key, hold, hnew⟩ := joins_iff.mp hjoins
  cases h with
  | reserved _ hnone =>
    rw [hnone] at hold
    cases hold
  | states id older st =>
    have hkey : key = (id, .state) := (Option.some.inj hold).symm
    have htext : mergedText signal = none := by
      cases htext : mergedText signal with
      | none => rfl
      | some text =>
        have := (mergedText_isSome hnew).mp (by simp [htext])
        exact absurd (congrArg Prod.snd hkey) this
    obtain ⟨st', rfl, -⟩ := state_of_mergeKey hnew htext
    subst hkey
    refine ⟨⟨_, 0⟩, bytes, rfl, ?_, rfl, rfl⟩
    have hrun := Renders.states id (older ++ [st]) st'
    rwa [List.map_append] at hrun
  | texts voice id texts shed kept hne hflat hcap =>
    have hkey : key = (id, voice.mergeClass) := (Option.some.inj ((mergeKey_say voice id kept).symm.trans hold)).symm
    have hspoken : (mergedText signal).isSome := by
      refine (mergedText_isSome hnew).mpr ?_
      rw [hkey]
      cases voice <;> simp [Voice.mergeClass]
    obtain ⟨add, hadd⟩ := Option.isSome_iff_exists.mp hspoken
    obtain ⟨voice', id', rfl⟩ := say_of_mergedText hadd
    have hsame : voice' = voice ∧ id' = id := by
      rw [mergeKey_say, hkey] at hnew
      cases voice <;> cases voice' <;> simp_all [Voice.mergeClass]
    obtain ⟨rfl, rfl⟩ := hsame
    have hruns : (texts.map fun text => voice'.say id' text) ++ [voice'.say id' add] =
        (texts ++ [add]).map fun text => voice'.say id' text := by simp
    have hflat' : (texts ++ [add]).flatten = shed ++ (kept ++ add) := by simp [hflat]
    rw [textLen_say] at hbytes
    rw [hruns]
    simp only [mergeInto, mergedText_say, withText_say, Option.bind_eq_bind, Option.bind_some]
    by_cases hover : MERGE_TEXT_CAP < size (kept ++ add)
    · rw [if_pos hover]
      have hcut := ceilCharBoundary_append (size (kept ++ add) - MERGE_TEXT_CAP) (kept ++ add)
      have hpast := le_size_ceilCharBoundary (Nat.sub_le (size (kept ++ add)) MERGE_TEXT_CAP)
      generalize ceilCharBoundary (size (kept ++ add) - MERGE_TEXT_CAP) (kept ++ add) = cut at hcut hpast
      obtain ⟨front, back⟩ := cut
      have hsize : size front + size back = size kept + size add := by
        rw [← size_append, hcut, size_append]
      refine ⟨_, _, rfl, ?_, ?_, ?_⟩
      · rw [← size_append]
        refine .texts voice' id' (texts ++ [add]) (shed ++ front) back (by simp) ?_ fun _ => ⟨?_, ?_⟩
        · rw [hflat', ← hcut, List.append_assoc]
        · rw [hflat', size_append]
          omega
        · rw [size_append] at hpast hover
          dsimp only at hpast
          omega
      · rw [mergeKey_say, mergeKey_say]
      · rw [textLen_say, textLen_say]
        dsimp only
        omega
    · rw [if_neg hover]
      refine ⟨_, _, rfl, ?_, ?_, ?_⟩
      · refine .texts voice' id' (texts ++ [add]) shed (kept ++ add) (by simp) hflat' fun hshed => ?_
        have hlong := (hcap hshed).1
        have hadded := size_append kept add
        rw [hflat, size_append] at hlong
        rw [hflat', size_append]
        omega
      · rw [mergeKey_say, mergeKey_say]
      · rw [textLen_say, textLen_say, size_append]
        omega

/-! ## The whole queue -/

def resident (items : List QueueEntry) : ℕ := (items.map fun e => textLen e.signal).sum

/-- The entries stand for the runs of the plain queue, and the counter for the text in them. -/
structure Mirrors (q : BusQueue) (p : Plain) : Prop where
  owed : q.markers = p.owed
  runs : ∃ runs : List (List Signal), p.waiting = runs.flatten ∧
    List.Forall₂ (fun e run => Renders run e.signal e.elided) q.items runs
  /-- No entry joins the one before it. -/
  apart : q.items.IsChain fun e f => BusQueue.joins e.signal f.signal = false
  bytes : q.bytes = resident q.items

theorem mirrors_new : Mirrors .new ⟨[], []⟩ := ⟨rfl, ⟨[], rfl, .nil⟩, .nil, rfl⟩

theorem renders_single (s : Signal) : Renders [s] s 0 := by
  cases hkey : mergeKey s with
  | none => exact .reserved s hkey
  | some key =>
    cases htext : mergedText s with
    | none =>
      obtain ⟨st, rfl, -⟩ := state_of_mergeKey hkey htext
      exact .states key.1 [] st
    | some text =>
      obtain ⟨voice, id, rfl⟩ := say_of_mergedText htext
      exact .texts voice id [text] [] text (by simp) (by simp) (fun h => absurd rfl h)

theorem resident_append (xs ys : List QueueEntry) : resident (xs ++ ys) = resident xs + resident ys := by
  unfold resident
  rw [List.map_append, List.sum_append]

theorem resident_single (e : QueueEntry) : resident [e] = textLen e.signal := by simp [resident]

theorem Mirrors.append {q : BusQueue} {p : Plain} (h : Mirrors q p) (s : Signal)
    (alone : ∀ tail ∈ q.items.getLast?, BusQueue.joins tail.signal s = false) :
    Mirrors { q with items := q.items ++ [⟨s, 0⟩], bytes := q.bytes + textLen s }
      { p with waiting := p.waiting ++ [s] } where
  owed := h.owed
  runs := by
    obtain ⟨runs, hwait, hruns⟩ := h.runs
    refine ⟨runs ++ [[s]], ?_, ?_⟩
    · rw [hwait, List.flatten_append, List.flatten_singleton]
    · exact List.rel_append hruns (.cons (renders_single s) .nil)
  apart := by
    refine List.isChain_append.mpr ⟨h.apart, .singleton _, ?_⟩
    intro tail htail f hf
    cases hf
    exact alone tail htail
  bytes := by
    rw [resident_append, resident_single, h.bytes]

omit [Payloads] in
theorem forall₂_snoc {α β : Type} {R : α → β → Prop} {xs : List α} {x : α} {ys : List β}
    (h : List.Forall₂ R (xs ++ [x]) ys) : ∃ front y, ys = front ++ [y] ∧ List.Forall₂ R xs front ∧ R x y := by
  induction xs generalizing ys with
  | nil =>
    cases h with
    | cons hxy hnil =>
      cases hnil
      exact ⟨[], _, rfl, .nil, hxy⟩
  | cons z xs ih =>
    cases h with
    | cons hz hrest =>
      obtain ⟨front, y, rfl, hfront, hy⟩ := ih hrest
      exact ⟨_ :: front, y, rfl, .cons hz hfront, hy⟩

theorem Mirrors.push {q : BusQueue} {p : Plain} (h : Mirrors q p) (s : Signal) :
    ∃ q', q.push s = some q' ∧ Mirrors q' { p with waiting := p.waiting ++ [s] } := by
  unfold BusQueue.push
  cases hlast : q.items.getLast? with
  | none => exact ⟨_, rfl, h.append s (by simp [hlast])⟩
  | some tail =>
    dsimp only
    by_cases hjoins : BusQueue.joins tail.signal s = true
    · rw [if_pos hjoins]
      obtain ⟨front, hitems⟩ : ∃ front, q.items = front ++ [tail] :=
        ⟨q.items.dropLast, (List.dropLast_append_getLast? tail hlast).symm⟩
      have hbytes := h.bytes
      rw [hitems, resident_append, resident_single] at hbytes
      obtain ⟨runs, hwait, hruns⟩ := h.runs
      rw [hitems] at hruns
      obtain ⟨frontRuns, run, rfl, hfront, hrun⟩ := forall₂_snoc hruns
      obtain ⟨entry, bytes, hmerge, hentry, hkey, hcount⟩ :=
        renders_mergeInto hrun hjoins (show textLen tail.signal ≤ q.bytes by omega)
      rw [hmerge]
      refine ⟨_, rfl, h.owed, ⟨frontRuns ++ [run ++ [s]], ?_, ?_⟩, ?_, ?_⟩
      · show p.waiting ++ [s] = _
        rw [hwait]
        simp
      · show List.Forall₂ _ (q.items.dropLast ++ [entry]) _
        rw [hitems, List.dropLast_concat]
        exact List.rel_append hfront (.cons hentry .nil)
      · show (q.items.dropLast ++ [entry]).IsChain _
        have hchain := h.apart
        rw [hitems, List.isChain_append] at hchain
        rw [hitems, List.dropLast_concat]
        refine List.isChain_append.mpr ⟨hchain.1, .singleton _, ?_⟩
        intro e he f hf
        cases hf
        have hold := hchain.2.2 e he tail rfl
        unfold BusQueue.joins at hold ⊢
        rwa [hkey]
      · show bytes = resident (q.items.dropLast ++ [entry])
        rw [hitems, List.dropLast_concat, resident_append, resident_single]
        omega
    · rw [if_neg hjoins]
      refine ⟨_, rfl, h.append s fun t ht => ?_⟩
      rw [hlast] at ht
      cases ht
      simpa using hjoins

theorem Mirrors.pop {q : BusQueue} {p : Plain} (h : Mirrors q p) :
    ∃ out q' p', q.popOne = some (out, q') ∧ p.Step .pop out p' ∧ Mirrors q' p' := by
  obtain ⟨items, marks, bytes⟩ := q
  obtain ⟨waiting, owed⟩ := p
  obtain rfl : marks = owed := h.owed
  obtain ⟨runs, rfl, hruns⟩ : ∃ runs : List (List Signal), waiting = runs.flatten ∧
    List.Forall₂ (fun e run => Renders run e.signal e.elided) items runs := h.runs
  cases marks with
  | cons m marks => exact ⟨some m, _, _, rfl, .marker _ _ m, rfl, ⟨runs, rfl, hruns⟩, h.apart, h.bytes⟩
  | nil =>
    cases hruns with
    | nil => exact ⟨none, _, _, rfl, .idle, h⟩
    | @cons e run items runs hrun hrest =>
      have hchain := List.isChain_cons.mp h.apart
      -- what follows the run starts with a signal of the next entry, which does not join
      have hnext : ∀ x ∈ runs.flatten.head?, BusQueue.joins e.signal x = false := by
        intro x hx
        cases hrest with
        | nil => cases hx
        | @cons f r _ _ hr _ =>
          obtain ⟨y, r, rfl⟩ := List.exists_cons_of_ne_nil hr.ne_nil
          cases hx
          have hapart := hchain.1 f rfl
          have hkey := hr.mergeKey_eq List.mem_cons_self
          unfold BusQueue.joins at hapart ⊢
          rwa [hkey]
      have hlead : leading (run ++ runs.flatten) = (run, runs.flatten) := leading_append hrun hnext
      have hstep : Plain.Step ⟨run ++ runs.flatten, []⟩ .pop (some e.signal)
          ⟨runs.flatten, markers e.signal e.elided⟩ := by
        have htake := @Plain.Step.take _ (run ++ runs.flatten) e.signal e.elided (by rwa [hlead])
        rwa [hlead] at htake
      have hbytes : bytes - textLen e.signal = resident items := by
        have htotal : bytes = resident (e :: items) := h.bytes
        rw [htotal]
        simp [resident]
      have hmirror : Mirrors ⟨items, markers e.signal e.elided, bytes - textLen e.signal⟩
          ⟨runs.flatten, markers e.signal e.elided⟩ :=
        ⟨rfl, ⟨runs, rfl, hrest⟩, hchain.2, hbytes⟩
      refine ⟨some e.signal, _, _, ?_, hstep, hmirror⟩
      unfold BusQueue.popOne markers
      by_cases hshed : 0 < e.elided
      · obtain ⟨key, hkey⟩ := hrun.elided_key hshed
        simp [hshed, hkey]
      · simp [hshed]

/-! ## Any sequence of pushes and pops -/

theorem Mirrors.step {q : BusQueue} {p : Plain} (h : Mirrors q p) (op : Op) :
    ∃ out q' p', op.step q = some (out, q') ∧ p.Step op out p' ∧ Mirrors q' p' := by
  cases op with
  | pop => exact h.pop
  | push s =>
    obtain ⟨q', hq', hmirror⟩ := h.push s
    exact ⟨none, q', _, by simp [Op.step, hq'], .push p s, hmirror⟩

theorem Mirrors.run {q : BusQueue} {p : Plain} (h : Mirrors q p) (ops : List Op) :
    ∃ outs q' p', run q ops = some (outs, q') ∧ p.Runs ops outs p' ∧ Mirrors q' p' := by
  induction ops generalizing q p with
  | nil => exact ⟨[], q, p, rfl, .nil p, h⟩
  | cons op ops ih =>
    obtain ⟨out, q₁, p₁, hstep, hplain, hmirror⟩ := h.step op
    obtain ⟨outs, q₂, p₂, hrun, hplains, hend⟩ := ih hmirror
    exact ⟨out :: outs, q₂, p₂, by simp [Bus.run, hstep, hrun], .cons hplain hplains, hend⟩

/-! ## What a plain queue has handed over -/

def sent (ops : List Op) : List Signal :=
  ops.filterMap fun op =>
    match op with
    | .push s => some s
    | .pop => none

/-- What is received for each run: what stands for it, and the marker of what was shed. -/
inductive Hands : List Signal → List Signal → Prop
  | run {run : List Signal} {s : Signal} {n : ℕ} : Renders run s n → Hands run (s :: markers s n)

theorem leading_flatten (waiting : List Signal) : (leading waiting).1 ++ (leading waiting).2 = waiting := by
  cases waiting with
  | nil => rfl
  | cons s rest =>
    rw [leading, List.cons_append, List.takeWhile_append_dropWhile]

/-- The signals sent, cut into runs, are those received and those waiting. -/
theorem Plain.Runs.accounts {p p' : Plain} {ops : List Op} {outs : List (Option Signal)} (h : p.Runs ops outs p') :
    ∃ runs received, p.waiting ++ sent ops = runs.flatten ++ p'.waiting ∧
      List.Forall₂ Hands runs received ∧ p.owed ++ received.flatten = outs.filterMap id ++ p'.owed := by
  induction h with
  | nil p => exact ⟨[], [], by simp [sent], .nil, by simp⟩
  | @cons p p' p'' op ops out outs hstep hruns ih =>
    obtain ⟨runs, received, hsent, hhands, howed⟩ := ih
    cases hstep with
    | push s =>
      refine ⟨runs, received, ?_, hhands, howed⟩
      rw [← hsent]
      simp [sent]
    | marker waiting owed m =>
      refine ⟨runs, received, hsent, hhands, ?_⟩
      show m :: (owed ++ received.flatten) = m :: (outs.filterMap id ++ p''.owed)
      rw [← howed]
    | idle => exact ⟨runs, received, hsent, hhands, howed⟩
    | @take waiting s n hrender =>
      refine ⟨(leading waiting).1 :: runs, (s :: markers s n) :: received, ?_, .cons (.run hrender) hhands, ?_⟩
      · rw [List.flatten_cons, List.append_assoc, ← hsent, ← List.append_assoc, leading_flatten]
        rfl
      · show s :: (markers s n ++ received.flatten) = s :: (outs.filterMap id ++ p''.owed)
        rw [← howed]

/-- Whatever is pushed and popped, the bus returns what the plain queue returns; cut into runs,
the signals sent are those received, each run as the signal that stands for it and the marker
of what was shed, and those still waiting; and the counter is the text in the queue. -/
theorem coalescing_refines_plain (ops : List Op) :
    ∃ outs q p, run .new ops = some (outs, q) ∧ Plain.Runs ⟨[], []⟩ ops outs p ∧
      q.bytes = resident q.items ∧
      ∃ runs received, sent ops = runs.flatten ++ p.waiting ∧ List.Forall₂ Hands runs received ∧
        received.flatten = outs.filterMap id ++ q.markers := by
  obtain ⟨outs, q, p, hrun, hplain, hmirror⟩ := mirrors_new.run ops
  obtain ⟨runs, received, hsent, hhands, howed⟩ := hplain.accounts
  refine ⟨outs, q, p, hrun, hplain, hmirror.bytes, runs, received, by simpa using hsent, hhands, ?_⟩
  rw [hmirror.owed]
  simpa using howed

end Ral.Bus
