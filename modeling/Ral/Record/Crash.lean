import Mathlib.Data.List.Forall2
import Ral.Record.Reader

/-! # Crashes

The log's life under any mixture of appends, failed writes, crashes that keep
any prefix of the file, and resumes: what the file reads back as, where the
next commit goes, and what a locus answers.
-/

namespace Ral.Record
open Ral.Lines

section Crash
variable {R : Type}

/-! ## The life of a log -/

/-- The record file, its sidecar, and the handle of the process that has it open. -/
structure World where
  file : Bytes
  sidecar : Bytes
  log : Option Log

inductive Event (R : Type)
  | append (atUnixMs : ℕ) (records : NonEmpty R) (room : Option ℕ)
  | crash (n : ℕ)
  | resume

def World.step (json : Json R) (blake3 : Bytes → Bytes) (w : World) : Event R → World × Option (Commit R)
  | .append atUnixMs records room =>
    match w.log with
    | none => (w, none)
    | some log =>
      match log.append json blake3 w.file atUnixMs records room with
      | (log, file, .ok commit) => ({ w with file, log := some log }, some commit)
      | (log, file, .error _) => ({ w with file, log := some log }, none)
  | .crash n => ({ w with file := w.file.take n, log := none }, none)
  | .resume =>
    let (file, sidecar) := quarantineTail json blake3 w.file w.sidecar
    (⟨file, sidecar, (Log.appendTo json blake3 file).toOption⟩, none)

/-- A world with the commits ever returned, and those the file should still hold. -/
structure History (R : Type) where
  world : World
  minted : List (Commit R)
  kept : List (Commit R)

namespace History

/-- A log just created. -/
def fresh : History R := ⟨⟨[], [], some ⟨0, 0, none⟩⟩, [], []⟩

/-- A crash loses the commits that do not end in what the file keeps, and nothing else is lost. -/
def step (json : Json R) (blake3 : Bytes → Bytes) (h : History R) (event : Event R) : History R :=
  let (world, commit) := h.world.step json blake3 event
  let kept :=
    match event with
    | .crash n => h.kept.filter fun c => decide (c.bytes.stop ≤ n)
    | _ => h.kept
  ⟨world, h.minted ++ commit.toList, kept ++ commit.toList⟩

def run (json : Json R) (blake3 : Bytes → Bytes) (events : List (Event R)) : History R :=
  events.foldl (step json blake3) fresh

end History

variable {json : Json R} {blake3 : Bytes → Bytes}

/-! ## One event -/

variable (blake3) in
/-- A failed append leaves at most the start of a line; one that returns adds its line. -/
theorem Log.append_cases (hj : json.Faithful) (log : Log) (file : Bytes) (atUnixMs : ℕ)
    (records : NonEmpty R) (room : Option ℕ) :
    (∃ log' part why, log.append json blake3 file atUnixMs records room = (log', file ++ part, .error why) ∧
      log'.commits = log.commits ∧ log'.pos = log.pos ∧ log'.failure ≠ none ∧ newline ∉ part ∧
      (log.failure ≠ none → part = [])) ∨
    ∃ e : Entry json blake3, e.body = ⟨atUnixMs, records⟩ ∧ log.failure = none ∧
      log.append json blake3 file atUnixMs records room
        = (⟨log.commits + 1, log.pos + (e.line.length + 1), none⟩, file ++ (e.line ++ [newline]),
            .ok (e.commit log.commits log.pos)) := by
  obtain ⟨commits, pos, failure⟩ := log
  cases failure with
  | some failure =>
    refine .inl ⟨⟨commits, pos, some failure⟩, [], failure, ?_, rfl, rfl, by simp, by simp, fun _ => rfl⟩
    simp [Log.append]
  | none =>
    cases hseal : sealLine json blake3 ⟨atUnixMs, records⟩ with
    | error why =>
      refine .inl ⟨⟨commits, pos, some why⟩, [], why, ?_, rfl, rfl, by simp, by simp, fun _ => rfl⟩
      simp [Log.append, hseal]
    | ok sealed =>
      obtain ⟨sum, line⟩ := sealed
      let e : Entry json blake3 := ⟨⟨atUnixMs, records⟩, sum, line, hseal⟩
      have hwhole : write file (line ++ [newline]) room = (file ++ (line ++ [newline]), true) →
          Log.append json blake3 ⟨commits, pos, none⟩ file atUnixMs records room =
            (⟨commits + 1, pos + (e.line.length + 1), none⟩, file ++ (e.line ++ [newline]),
              .ok (e.commit commits pos)) := by
        intro hw
        simp [Log.append, hseal, hw, e, Entry.commit]
      cases room with
      | none => exact .inr ⟨e, rfl, rfl, hwhole rfl⟩
      | some remaining =>
        by_cases hroom : (line ++ [newline]).length ≤ remaining
        · refine .inr ⟨e, rfl, rfl, hwhole ?_⟩
          rw [write, List.take_of_length_le hroom, decide_eq_true hroom]
        · have hpart : write file (line ++ [newline]) (some remaining)
              = (file ++ line.take remaining, false) := by
            have hlen : (line ++ [newline]).length = line.length + 1 := by simp
            rw [write, decide_eq_false hroom, List.take_append_of_le_length (by omega)]
          refine .inl ⟨⟨commits, pos, some "recording failed"⟩, line.take remaining,
            "recording failed", ?_, rfl, rfl, by simp, ?_, fun h => (h rfl).elim⟩
          · simp [Log.append, hseal, hpart]
          · exact fun hm => e.plain hj (List.mem_of_mem_take hm)

/-- The file is whole lines and the start of one, and the handle stands at the lines' end;
a tail stands only behind a failure. -/
structure Stands (h : History R) (entries : List (Entry json blake3)) (tail : Bytes) : Prop where
  file : h.world.file = bytesOf entries ++ tail
  torn : newline ∉ tail
  kept : h.kept = lay 0 0 entries
  log : ∀ log, h.world.log = some log → log.commits = entries.length ∧
    log.pos = (bytesOf entries).length ∧ (log.failure = none → tail = [])

theorem stands_fresh : Stands (History.fresh : History R) ([] : List (Entry json blake3)) [] where
  file := rfl
  torn := List.not_mem_nil
  kept := rfl
  log := by
    rintro log ⟨⟩
    exact ⟨rfl, rfl, fun _ => rfl⟩

section Step
variable (hj : json.Faithful) {h : History R} {entries : List (Entry json blake3)} {tail : Bytes}
include hj

theorem Stands.append (hs : Stands h entries tail) (atUnixMs : ℕ) (records : NonEmpty R)
    (room : Option ℕ) :
    ∃ (entries' : List (Entry json blake3)) (tail' : Bytes),
      Stands (h.step json blake3 (.append atUnixMs records room)) entries' tail' := by
  cases hlog : h.world.log with
  | none =>
    have hstep : h.step json blake3 (.append atUnixMs records room) = h := by
      simp [History.step, World.step, hlog]
    rw [hstep]
    exact ⟨entries, tail, hs⟩
  | some log =>
    obtain ⟨hcommits, hpos, hclean⟩ := hs.log log hlog
    rcases Log.append_cases blake3 hj log h.world.file atUnixMs records room with
      ⟨log', part, why, happend, hcommits', hpos', hfailure, hpart, hsame⟩ |
      ⟨e, _, hlive, happend⟩
    · have hstep : h.step json blake3 (.append atUnixMs records room)
          = { h with world := { h.world with file := h.world.file ++ part, log := some log' } } := by
        simp [History.step, World.step, hlog, happend]
      have htorn : newline ∉ tail ++ part := by
        rw [List.mem_append]
        exact fun hm => hm.elim hs.torn hpart
      rw [hstep]
      refine ⟨entries, tail ++ part, ⟨?_, htorn, hs.kept, ?_⟩⟩
      · show h.world.file ++ part = _
        rw [hs.file, List.append_assoc]
      · rintro _ ⟨⟩
        exact ⟨hcommits'.trans hcommits, hpos'.trans hpos, fun hnone => (hfailure hnone).elim⟩
    · have hstep : h.step json blake3 (.append atUnixMs records room)
          = ⟨⟨h.world.file ++ (e.line ++ [newline]), h.world.sidecar,
              some ⟨log.commits + 1, log.pos + (e.line.length + 1), none⟩⟩,
            h.minted ++ [e.commit log.commits log.pos], h.kept ++ [e.commit log.commits log.pos]⟩ := by
        simp [History.step, World.step, hlog, happend]
      have htail := hclean hlive
      subst htail
      rw [hstep]
      refine ⟨entries ++ [e], [], ⟨?_, List.not_mem_nil, ?_, ?_⟩⟩
      · show h.world.file ++ (e.line ++ [newline]) = _
        rw [hs.file]
        simp
      · show h.kept ++ [e.commit log.commits log.pos] = _
        rw [hs.kept, lay_append, hcommits, hpos, Nat.zero_add, Nat.zero_add]
        rfl
      · rintro _ ⟨⟩
        refine ⟨?_, ?_, fun _ => rfl⟩
        · rw [List.length_append, hcommits, List.length_singleton]
        · show log.pos + (e.line.length + 1) = _
          rw [hpos]
          simp

theorem Stands.crash (hs : Stands h entries tail) (n : ℕ) :
    ∃ (entries' : List (Entry json blake3)) (tail' : Bytes),
      Stands (h.step json blake3 (.crash n)) entries' tail' := by
  have hsome : ∃ rest, newline ∉ rest ∧
      (bytesOf entries ++ tail).take n = bytesOf (whole (·.line) entries n) ++ rest :=
    take_frame (fun e _ => e.plain hj) hs.torn n
  obtain ⟨rest, hrest, htake⟩ := hsome
  have hkept := filter_lay 0 0 n entries
  rw [Nat.zero_add] at hkept
  refine ⟨whole (·.line) entries n, rest, ⟨?_, hrest, ?_, ?_⟩⟩
  · show h.world.file.take n = _
    rw [hs.file, htake]
  · show (h.kept.filter fun c => decide (c.bytes.stop ≤ n)) ++ [] = _
    rw [List.append_nil, hs.kept, hkept]
  · rintro log ⟨⟩

theorem Stands.step_resume (hs : Stands h entries tail) :
    h.step json blake3 .resume
      = ⟨⟨bytesOf entries, h.world.sidecar ++ tail,
          some ⟨entries.length, (bytesOf entries).length, none⟩⟩, h.minted, h.kept⟩ := by
  have hq := quarantineTail_bytesOf hj entries hs.torn h.world.sidecar
  rw [← hs.file] at hq
  simp [History.step, World.step, hq, appendTo_bytesOf hj, Except.toOption]

theorem Stands.resume (hs : Stands h entries tail) :
    Stands (h.step json blake3 .resume) entries [] := by
  rw [hs.step_resume hj]
  refine ⟨(List.append_nil _).symm, List.not_mem_nil, hs.kept, ?_⟩
  rintro _ ⟨⟩
  exact ⟨rfl, rfl, fun _ => rfl⟩

theorem Stands.step (hs : Stands h entries tail) (event : Event R) :
    ∃ (entries' : List (Entry json blake3)) (tail' : Bytes),
      Stands (h.step json blake3 event) entries' tail' := by
  cases event with
  | append atUnixMs records room => exact hs.append hj atUnixMs records room
  | crash n => exact hs.crash hj n
  | resume => exact ⟨entries, [], hs.resume hj⟩

end Step

/-- Each commit returned seals what some append was given, and what stands was returned. -/
structure Returned (json : Json R) (blake3 : Bytes → Bytes) (events : List (Event R)) (h : History R) :
    Prop where
  minted : ∀ c ∈ h.minted, ∃ (e : Entry json blake3) (number pos : ℕ), c = e.commit number pos ∧
    ∃ room, .append e.body.atUnixMs e.body.records room ∈ events
  kept : ∀ c ∈ h.kept, c ∈ h.minted

theorem World.step_commit (hj : json.Faithful) {w : World} {event : Event R} {c : Commit R}
    (h : (w.step json blake3 event).2 = some c) :
    ∃ (e : Entry json blake3) (number pos : ℕ), c = e.commit number pos ∧
      ∃ room, event = .append e.body.atUnixMs e.body.records room := by
  cases event with
  | append atUnixMs records room =>
    cases hlog : w.log with
    | none => simp [World.step, hlog] at h
    | some log =>
      rcases Log.append_cases blake3 hj log w.file atUnixMs records room with
        ⟨log', part, why, happend, _⟩ | ⟨e, hbody, _, happend⟩
      · simp [World.step, hlog, happend] at h
      · simp only [World.step, hlog, happend, Option.some.injEq] at h
        exact ⟨e, _, _, h.symm, room, by rw [hbody]⟩
  | crash n => cases h
  | resume => cases h

theorem Returned.step (hj : json.Faithful) {events : List (Event R)} {h : History R}
    (hr : Returned json blake3 events h) (event : Event R) :
    Returned json blake3 (events ++ [event]) (h.step json blake3 event) where
  minted := by
    intro c hc
    have hc : c ∈ h.minted ++ (h.world.step json blake3 event).2.toList := hc
    rw [List.mem_append, Option.mem_toList] at hc
    rcases hc with hc | hc
    · obtain ⟨e, number, pos, he, room, hroom⟩ := hr.minted c hc
      exact ⟨e, number, pos, he, room, List.mem_append_left _ hroom⟩
    · obtain ⟨e, number, pos, he, room, hroom⟩ := World.step_commit hj hc
      exact ⟨e, number, pos, he, room, by simp [hroom]⟩
  kept := by
    intro c hc
    show c ∈ h.minted ++ (h.world.step json blake3 event).2.toList
    have hsub : c ∈ h.kept ∨ c ∈ (h.world.step json blake3 event).2.toList := by
      cases event with
      | append => exact List.mem_append.mp hc
      | resume => exact List.mem_append.mp hc
      | crash n => exact (List.mem_append.mp hc).imp_left fun hm => (List.mem_filter.mp hm).1
    exact List.mem_append.mpr (hsub.imp_left (hr.kept c))

variable (blake3) in
theorem run_stands (hj : json.Faithful) (events : List (Event R)) :
    (∃ (entries : List (Entry json blake3)) (tail : Bytes),
        Stands (History.run json blake3 events) entries tail) ∧
      Returned json blake3 events (History.run json blake3 events) := by
  induction events using List.reverseRecOn with
  | nil => exact ⟨⟨[], [], stands_fresh⟩, ⟨by simp [History.run, History.fresh], by simp [History.run, History.fresh]⟩⟩
  | append_singleton events event ih =>
    obtain ⟨⟨entries, tail, hs⟩, hr⟩ := ih
    have hrun : History.run json blake3 (events ++ [event])
        = (History.run json blake3 events).step json blake3 event := by
      simp [History.run]
    rw [hrun]
    exact ⟨hs.step hj event, hr.step hj event⟩

/-! ## Answers -/

/-- No other bytes hash to the sum of a commit some append was given. -/
def Unforged (json : Json R) (blake3 : Bytes → Bytes) (events : List (Event R)) : Prop :=
  ∀ atUnixMs records room, .append atUnixMs records room ∈ events →
    ∀ text, json.toBody ⟨atUnixMs, records⟩ = .ok text →
      ∀ other, sumOf blake3 other = sumOf blake3 text → other = text

namespace Entry
variable {e : Entry json blake3} {number pos : ℕ} {recorded : Recorded R}

theorem recorded_cases (h : recorded ∈ (e.commit number pos).records.toList) :
    ∃ i, e.body.records.toList[i]? = some recorded.value ∧
      recorded.locus = ⟨⟨number + 1, i⟩, ⟨pos, pos + (e.line.length + 1)⟩, e.sum⟩ := by
  rw [commit, Commit.toList_new, List.mem_map] at h
  obtain ⟨⟨v, i⟩, hx, rfl⟩ := h
  exact ⟨i, List.mem_zipIdx_iff_getElem?.mp hx, rfl⟩

theorem own_records (hj : json.Faithful) {events : List (Event R)} (hfree : Unforged json blake3 events)
    {room : Option ℕ} (hin : .append e.body.atUnixMs e.body.records room ∈ events) {text : Bytes}
    {records : NonEmpty R} (hsum : sumOf blake3 text = e.sum)
    (hrecords : recordsOf json text = .ok records) : records = e.body.records := by
  obtain ⟨own, hbody, hown, _, hownRecords⟩ := e.unseals hj
  have htext : text = own := hfree _ _ room hin own hbody text (hsum.trans hown.symm)
  rw [htext, hownRecords] at hrecords
  cases hrecords
  rfl

/-- A line that stands is read back at its records' loci. -/
theorem lineAt_standing (hj : json.Faithful) {entries : List (Entry json blake3)} {more : Bytes}
    (hc : e.commit number pos ∈ lay 0 0 entries)
    (h : recorded ∈ (e.commit number pos).records.toList) :
    LocusReader.lineAt json blake3 (bytesOf entries ++ more) recorded.locus
      = .ok (e.commit number pos) := by
  obtain ⟨xs, e', ys, rfl, he⟩ := mem_lay hc
  obtain ⟨i, hi, hlocus⟩ := recorded_cases h
  rw [he] at h ⊢
  obtain ⟨i', hi', hlocus'⟩ := recorded_cases h
  obtain ⟨text, _, _, hunseal, hrecords⟩ := e'.unseals hj
  apply LocusReader.lineAt_eq_ok.mpr
  rw [hlocus']
  have hfile : bytesOf (xs ++ e' :: ys) ++ more
      = bytesOf xs ++ ((e'.line ++ [newline]) ++ (bytesOf ys ++ more)) := by simp
  have hlen : (e'.line ++ [newline]).length = e'.line.length + 1 := by simp
  have hslice : ((bytesOf (xs ++ e' :: ys) ++ more).drop (0 + (bytesOf xs).length)).take
      (0 + (bytesOf xs).length + (e'.line.length + 1) - (0 + (bytesOf xs).length))
        = e'.line ++ [newline] := by
    rw [hfile, Nat.zero_add, List.drop_left, Nat.add_sub_cancel_left, ← hlen, List.take_left]
  dsimp only
  rw [hslice, List.dropLast_concat]
  exact ⟨by simp, text, e'.body.records, hunseal, hrecords, rfl⟩

theorem record_standing (hj : json.Faithful) {events : List (Event R)}
    (hfree : Unforged json blake3 events) {room : Option ℕ}
    (hin : .append e.body.atUnixMs e.body.records room ∈ events) {entries : List (Entry json blake3)}
    {more : Bytes} (hc : e.commit number pos ∈ lay 0 0 entries)
    (h : recorded ∈ (e.commit number pos).records.toList) {reader : LocusReader R}
    (hh : reader.Honest json blake3) :
    (reader.record json blake3 (bytesOf entries ++ more) recorded.locus).2 = .ok recorded.value := by
  have hat : LocusReader.lineAt json blake3 (bytesOf entries ++ more) recorded.locus
      = .ok (e.commit number pos) := lineAt_standing hj hc h
  obtain ⟨i, hi, hlocus⟩ := recorded_cases h
  have hindex : recorded.locus.seq.index = i := by rw [hlocus]
  have hsum : recorded.locus.sum = e.sum := by rw [hlocus]
  rcases LocusReader.record_cases json blake3 reader (bytesOf entries ++ more)
    recorded.locus with ⟨c, hfrom, he⟩ | ⟨_, hnot, _, _⟩
  · rw [he, hindex]
    rcases hfrom with ⟨hline, hheld⟩ | hfile
    · obtain ⟨_, _, text, records, hrecords, rfl⟩ := hh c hline
      have htext := (LocusReader.holds_new.mp hheld).2.2
      rw [own_records hj hfree hin (htext.trans hsum) hrecords]
      exact LocusReader.okOr_new.mpr hi
    · rw [hat] at hfile
      cases hfile
      exact LocusReader.okOr_new.mpr hi
  · rw [hat] at hnot
    cases hnot

end Entry

/-- Every commit returned answers for its own records, and while it stands it does answer. -/
theorem readAll_own (hj : json.Faithful) {events : List (Event R)} (hfree : Unforged json blake3 events)
    {reader : LocusReader R} (hh : reader.Honest json blake3) (reads : List (Bytes × Locus)) :
    let h := History.run json blake3 events
    List.Forall₂ (fun q answer => ∀ c ∈ h.minted, ∀ recorded ∈ c.records.toList, recorded.locus = q.2 →
        (∀ v, answer = .ok v → v = recorded.value) ∧
        (c ∈ h.kept → h.world.file <+: q.1 → answer = .ok recorded.value))
      reads (readAll json blake3 reader reads) := by
  intro h
  obtain ⟨⟨entries, tail, hs⟩, hr⟩ := run_stands blake3 hj events
  induction reads generalizing reader with
  | nil => exact .nil
  | cons q reads ih =>
    obtain ⟨file, locus⟩ := q
    obtain ⟨hh', hanswer⟩ := LocusReader.record_honest hh file locus
    refine .cons ?_ (ih hh')
    rintro c hc recorded hrec rfl
    obtain ⟨e, number, pos, rfl, room, hin⟩ := hr.minted c hc
    constructor
    · intro v hv
      obtain ⟨text, records, hsum, hrecords, hat⟩ := hanswer v hv
      obtain ⟨i, hi, hlocus⟩ := e.recorded_cases hrec
      have hsum : sumOf blake3 text = e.sum := by rw [hsum, hlocus]
      have hat : records.toList[i]? = some v := by rw [← hat, hlocus]
      rw [e.own_records hj hfree hin hsum hrecords, hi] at hat
      cases hat
      rfl
    · rintro hkept ⟨more, rfl⟩
      rw [hs.kept] at hkept
      have hfile : h.world.file ++ more = bytesOf entries ++ (tail ++ more) := by
        rw [hs.file, List.append_assoc]
      rw [hfile]
      exact e.record_standing hj hfree hin hkept hrec hh

variable (json blake3) in
theorem readAll_holds (file : Bytes) {reader : LocusReader R} (hf : reader.Fresh json blake3 file)
    (loci : List Locus) :
    List.Forall₂ (fun locus answer => ∀ v, answer = .ok v → Holds json blake3 file locus v)
      loci (readAll json blake3 reader (loci.map fun locus => (file, locus))) := by
  induction loci generalizing reader with
  | nil => exact .nil
  | cons locus loci ih =>
    obtain ⟨hf', hanswer⟩ := LocusReader.record_fresh hf locus
    exact .cons hanswer (ih hf')

/-! ## The record survives -/

/-- In any life of the log: every prefix of the file reads back as exactly the commits it
wholly holds, whose end is its complete length; commits are numbered and laid without gap,
and a resume continues them; a locus of any commit ever returned answers its own record or
is refused, whatever was read before, answers while its commit stands, and is refused by a
file that no longer holds its record. -/
theorem survives_any_crash (hj : json.Faithful) (events : List (Event R))
    (hfree : Unforged json blake3 events) :
    let h := History.run json blake3 events
    (∀ n, let kept := h.kept.filter fun c => decide (c.bytes.stop ≤ n)
      read json blake3 (h.world.file.take n) = (kept.flatMap (·.records.toList)).map .ok ∧
        completeLen json blake3 (h.world.file.take n) = endOf kept) ∧
    Contiguous 0 0 h.kept ∧
    (∀ log, h.world.log = some log → log.commits = h.kept.length ∧ log.pos = endOf h.kept) ∧
    (h.step json blake3 .resume).world.log = some ⟨h.kept.length, endOf h.kept, none⟩ ∧
    (∀ reads : List (Bytes × Locus),
      List.Forall₂ (fun q answer => ∀ c ∈ h.minted, ∀ recorded ∈ c.records.toList,
          recorded.locus = q.2 → (∀ v, answer = .ok v → v = recorded.value) ∧
          (c ∈ h.kept → h.world.file <+: q.1 → answer = .ok recorded.value))
        reads (readAll json blake3 LocusReader.new reads)) ∧
    ∀ (file : Bytes) (loci : List Locus),
      List.Forall₂ (fun locus answer => ∀ c ∈ h.minted, ∀ recorded ∈ c.records.toList,
          recorded.locus = locus → ¬ Holds json blake3 file locus recorded.value →
          ∃ why, answer = .error why)
        loci (readAll json blake3 LocusReader.new (loci.map fun locus => (file, locus))) := by
  intro h
  obtain ⟨⟨entries, tail, hs⟩, _⟩ := run_stands blake3 hj events
  have hlength : h.kept.length = entries.length := by rw [hs.kept, length_lay]
  have hend : endOf h.kept = (bytesOf entries).length := by rw [hs.kept, endOf_lay]
  refine ⟨?_, ?_, ?_, ?_, readAll_own hj hfree LocusReader.honest_new, ?_⟩
  · intro n
    rw [hs.file, hs.kept]
    exact read_take hj entries hs.torn n
  · rw [hs.kept]
    exact contiguous_lay 0 0 entries
  · intro log hlog
    obtain ⟨hcommits, hpos, _⟩ := hs.log log hlog
    exact ⟨hcommits.trans hlength.symm, hpos.trans hend.symm⟩
  · rw [hs.step_resume hj, hlength, hend]
  · intro file loci
    have hholds := readAll_holds json blake3 file (LocusReader.fresh_new file) loci
    have hown := readAll_own hj hfree LocusReader.honest_new (loci.map fun locus => (file, locus))
    rw [List.forall₂_map_left_iff] at hown
    obtain ⟨hsame, hzip⟩ := List.forall₂_iff_zip.mp hholds
    refine List.forall₂_iff_zip.mpr ⟨hsame, fun {locus answer} hin c hc recorded hrec hat hnot => ?_⟩
    cases answer with
    | error why => exact ⟨why, rfl⟩
    | ok v =>
      have hv := ((List.forall₂_iff_zip.mp hown).2 hin c hc recorded hrec hat).1 v rfl
      rw [← hv] at hnot
      exact (hnot (hzip hin v rfl)).elim

/-! One record, as it is written and hashed. -/

def ascii (text : String) : Bytes := text.toList.map fun c => UInt8.ofNat c.toNat

def clearedText : Bytes :=
  ascii "\x7b\"at_unix_ms\":0,\"records\":[\x7b\"Transcript\":\"cleared\"\x7d]\x7d"

def clearedMark : String := "2ebf21c78a822e1f"

def clearedLine : Bytes :=
  ascii "\x7b\"sum\":\"2ebf21c78a822e1f\",\"commit\":" ++ clearedText ++ ascii "\x7d"

def clearedHash (bytes : Bytes) : Bytes :=
  if bytes = clearedText then
    [46, 191, 33, 199, 138, 130, 46, 31, 39, 60, 133, 51, 222, 176, 158, 124,
      62, 134, 70, 244, 154, 4, 213, 125, 128, 73, 134, 255, 122, 131, 74, 211]
  else List.replicate 32 0

def clearedJson : Json Unit where
  toBody body := if body = ⟨0, ⟨(), []⟩⟩ then .ok clearedText else .error "unencodable"
  toLine mark text :=
    if mark = clearedMark ∧ text = clearedText then .ok clearedLine else .error "unencodable"
  readBody text := if text = clearedText then .ok ⟨0, ⟨(), []⟩⟩ else .error ⟨.data, "missing field"⟩
  readLine parse line :=
    if line = clearedLine then
      match parse clearedMark with
      | some s => .ok (s, clearedText)
      | none => .error ⟨.data, "invalid value"⟩
    else .error ⟨.eof, "EOF while parsing"⟩
  readAny line := if line = clearedLine then .ok () else .error ⟨.eof, "EOF while parsing"⟩

theorem clearedJson_faithful : clearedJson.Faithful where
  body := by
    intro body text h
    simp only [clearedJson] at h ⊢
    split at h
    · next hbody =>
        cases h
        simp [hbody]
    · cases h
  line := by
    intro body text mark line _ hline S parse s hs
    simp only [clearedJson] at hline ⊢
    split at hline
    · next hmark =>
        obtain ⟨rfl, rfl⟩ := hmark
        cases hline
        simp [hs]
    · cases hline
  plain := by
    intro body text mark line _ hline
    simp only [clearedJson] at hline
    split at hline
    · cases hline
      decide +kernel
    · cases hline

theorem unforged_cleared (events : List (Event Unit)) : Unforged clearedJson clearedHash events := by
  intro atUnixMs records room _ text htext other hsum
  simp only [clearedJson] at htext
  split at htext
  · cases htext
    by_contra hne
    rw [sumOf, sumOf, clearedHash, if_neg hne] at hsum
    revert hsum
    decide +kernel
  · cases htext

/-- Two commits, a crash in the second, and a resume. -/
theorem survives_any_crash_cleared :
    let h := History.run clearedJson clearedHash
      [.append 0 ⟨(), []⟩ none, .append 0 ⟨(), []⟩ none, .crash 100, .resume]
    h.kept.length = 1 ∧ Contiguous 0 0 h.kept ∧
      (h.step clearedJson clearedHash .resume).world.log = some ⟨h.kept.length, endOf h.kept, none⟩ := by
  have h := survives_any_crash clearedJson_faithful
    [.append 0 ⟨(), []⟩ none, .append 0 ⟨(), []⟩ none, .crash 100, .resume] (unforged_cleared _)
  exact ⟨by decide +kernel, h.2.1, h.2.2.2.1⟩

end Crash

end Ral.Record
