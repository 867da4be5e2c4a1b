import Mathlib.Data.List.Pairwise
import Ral.Record.Feed

/-! # Delivery

Any interleaving of appends, syncs, attachments, catch-ups and drains: what is published,
what a reader has seen, what the watermark covers, and when a drained reader has it all.
-/

namespace Ral.Record.Feed
open Ral.Lines

variable {R : Type}

/-! ## Channels and commits -/

def Signal.commit? : Signal R → Option (Commit R)
  | .commit c => some c
  | .synced _ => none

def commitsIn (queue : List (Signal R)) : List (Commit R) := queue.filterMap Signal.commit?

@[simp] theorem commitsIn_nil : commitsIn ([] : List (Signal R)) = [] := rfl

@[simp] theorem commitsIn_commit (c : Commit R) (queue : List (Signal R)) :
    commitsIn (.commit c :: queue) = c :: commitsIn queue := rfl

@[simp] theorem commitsIn_synced (n : ℕ) (queue : List (Signal R)) :
    commitsIn (.synced n :: queue) = commitsIn queue := rfl

@[simp] theorem commitsIn_append (xs ys : List (Signal R)) :
    commitsIn (xs ++ ys) = commitsIn xs ++ commitsIn ys := by
  simp [commitsIn]

theorem mem_commitsIn {c : Commit R} {queue : List (Signal R)} :
    c ∈ commitsIn queue ↔ Signal.commit c ∈ queue := by
  simp only [commitsIn, List.mem_filterMap]
  constructor
  · intro h
    obtain ⟨signal, hmem, hc⟩ := h
    cases signal with
    | commit c' =>
      cases hc
      exact hmem
    | synced n => cases hc
  · intro h
    exact ⟨.commit c, h, rfl⟩

/-! ## The lines so far -/

section Lines
variable {json : Json R} {blake3 : Bytes → Bytes} {entries : List (Entry json blake3)}

def place (entries : List (Entry json blake3)) (n : ℕ) : Cursor :=
  ⟨n, (bytesOf (entries.take n)).length⟩

theorem place_zero : place entries 0 = Cursor.start := by
  simp [place, Cursor.start]

theorem place_append {n : ℕ} (h : n ≤ entries.length) (more : List (Entry json blake3)) :
    place (entries ++ more) n = place entries n := by
  rw [place, place, List.take_append_of_le_length h]

theorem lay_take_append {n : ℕ} (h : n ≤ entries.length) (more : List (Entry json blake3)) :
    (lay 0 0 (entries ++ more)).take n = (lay 0 0 entries).take n := by
  rw [lay_append, List.take_append_of_le_length (by rwa [length_lay])]

theorem lay_between {n m : ℕ} (hn : n ≤ m) (hm : m ≤ entries.length) :
    (lay 0 0 entries).take m = (lay 0 0 entries).take n ++
      lay n (bytesOf (entries.take n)).length ((entries.drop n).take (m - n)) := by
  have split : entries.take m = entries.take n ++ (entries.drop n).take (m - n) := by
    have := List.take_add (l := entries) (i := n) (j := m - n)
    rwa [Nat.add_sub_cancel' hn] at this
  have takes : ∀ k, k ≤ entries.length →
      (lay 0 0 entries).take k = lay 0 0 (entries.take k) := by
    intro k hk
    have short : k ≤ (entries.take k).length := by simp [hk]
    have := lay_take_append short (entries.drop k)
    rw [List.take_append_drop] at this
    rw [this, List.take_of_length_le]
    rw [length_lay, List.length_take]
    omega
  have len : (entries.take n).length = n := by
    rw [List.length_take]
    omega
  rw [takes m hm, split, lay_append, takes n (by omega), Nat.zero_add, Nat.zero_add, len]

theorem number_getElem {k : ℕ} {c : Commit R} (h : (lay 0 0 entries)[k]? = some c) :
    c.number = k + 1 := by
  have contiguous := contiguous_lay 0 0 entries
  have general : ∀ (cs : List (Commit R)) (number pos k : ℕ), Contiguous number pos cs →
      cs[k]? = some c → c.number = number + k + 1 := by
    intro cs
    induction cs with
    | nil => simp
    | cons d cs ih =>
      intro number pos k hcs hk
      obtain ⟨hnumber, -, -, rest⟩ := hcs
      cases k with
      | zero =>
        cases hk
        omega
      | succ k =>
        have := ih _ _ k rest hk
        omega
  have := general _ 0 0 k contiguous h
  omega

theorem sorted_lay : (lay 0 0 entries).Pairwise fun a b => a.number < b.number := by
  rw [List.pairwise_iff_getElem]
  intro i j hi hj hij
  have hi' := number_getElem (List.getElem?_eq_getElem hi)
  have hj' := number_getElem (List.getElem?_eq_getElem hj)
  omega

theorem number_le {c : Commit R} (h : c ∈ lay 0 0 entries) : c.number ≤ entries.length := by
  obtain ⟨k, hk, rfl⟩ := List.mem_iff_getElem.mp h
  have := number_getElem (List.getElem?_eq_getElem hk)
  rw [length_lay] at hk
  omega

theorem number_le_of_stop {c : Commit R} (h : c ∈ lay 0 0 entries) {m : ℕ}
    (stop : c.bytes.stop ≤ (bytesOf (entries.take m)).length) : c.number ≤ m := by
  obtain ⟨xs, e, ys, rfl, rfl⟩ := mem_lay h
  by_contra beyond
  have short : m ≤ xs.length := by
    have : ¬ (0 + xs.length + 1 ≤ m) := beyond
    omega
  rw [List.take_append_of_le_length short] at stop
  have inside : (bytesOf (xs.take m)).length ≤ (bytesOf xs).length := by
    have := congrArg (fun l => (bytesOf l).length) (List.take_append_drop m xs)
    simp only [bytesOf_append, List.length_append] at this
    omega
  have past : 0 + (bytesOf xs).length + (e.line.length + 1) ≤ (bytesOf (xs.take m)).length := stop
  omega

/-- Catching up between two places reads exactly the commits between them, whatever the file
has grown since. -/
theorem commits_between (hj : json.Faithful) {n m : ℕ} (hn : n ≤ m) (tail : Bytes) :
    commits json blake3 (bytesOf entries ++ tail) (place entries n).commit (place entries n).stop
        (bytesOf (entries.take m)).length =
      (lay n (bytesOf (entries.take n)).length ((entries.drop n).take (m - n))).map .ok := by
  have before : (bytesOf entries ++ tail).drop (bytesOf (entries.take n)).length
      = bytesOf (entries.drop n) ++ tail := by
    rw [← List.take_append_drop n entries, bytesOf_append, List.append_assoc]
    simp
  have extent : (bytesOf (entries.take m)).length - (bytesOf (entries.take n)).length
      = (bytesOf ((entries.drop n).take (m - n))).length := by
    have := List.take_add (l := entries) (i := n) (j := m - n)
    rw [Nat.add_sub_cancel' hn] at this
    rw [this, bytesOf_append, List.length_append]
    omega
  have whole : (bytesOf (entries.drop n) ++ tail).take (bytesOf ((entries.drop n).take (m - n))).length
      = bytesOf ((entries.drop n).take (m - n)) := by
    have := congrArg bytesOf (List.take_append_drop (m - n) (entries.drop n)).symm
    rw [this, bytesOf_append, List.append_assoc, List.take_left]
  have lines : split newline (bytesOf ((entries.drop n).take (m - n)))
      = ((entries.drop n).take (m - n)).map (·.line) := by
    apply split_frame
    intro line hline
    obtain ⟨e, -, rfl⟩ := List.mem_map.mp hline
    exact e.plain hj
  rw [commits, place, before, extent, whole, lines, commitsFrom_entries hj]

theorem commits_read (hj : json.Faithful) {n m : ℕ} (hn : n ≤ m) (hm : m ≤ entries.length)
    (tail : Bytes) :
    commits json blake3 (bytesOf entries ++ tail) (place entries n).commit (place entries n).stop
        (bytesOf (entries.take m)).length = (((lay 0 0 entries).take m).drop n).map .ok := by
  have len : ((lay 0 0 entries).take n).length = n := by
    rw [List.length_take, length_lay]
    omega
  rw [commits_between hj hn tail, lay_between hn hm, List.drop_left' len]

end Lines

/-! ## A reader's place -/

section Follows
variable {json : Json R} {blake3 : Bytes → Bytes} {entries : List (Entry json blake3)}
  {sub : Subscriber R}

/-- At place `n`, with the commits up to it seen; a read under way stops at a later place. -/
structure Subscriber.At (sub : Subscriber R) (entries : List (Entry json blake3)) (n : ℕ) : Prop where
  le : n ≤ entries.length
  cursor : sub.cursor = some (place entries n)
  seen : sub.seen = (lay 0 0 entries).take n
  extent : ∀ source stop, sub.mode = .reading source stop →
    source = place entries n ∧ ∃ m, n ≤ m ∧ m ≤ entries.length ∧ stop = (bytesOf (entries.take m)).length

/-- Either it never read, or it stands at a place. -/
def Subscriber.Follows (sub : Subscriber R) (entries : List (Entry json blake3)) : Prop :=
  (sub.cursor = none ∧ sub.seen = [] ∧ ∀ source stop, sub.mode ≠ .reading source stop) ∨
    ∃ n, sub.At entries n

theorem Subscriber.At.append {n : ℕ} (h : sub.At entries n) (more : List (Entry json blake3)) :
    sub.At (entries ++ more) n where
  le := by
    have := h.le
    rw [List.length_append]
    omega
  cursor := by rw [h.cursor, place_append h.le]
  seen := by rw [h.seen, lay_take_append h.le]
  extent := by
    intro source stop hmode
    obtain ⟨hsource, m, hn, hm, hstop⟩ := h.extent source stop hmode
    refine ⟨by rw [hsource, place_append h.le], m, hn, ?_, ?_⟩
    · rw [List.length_append]
      omega
    · rw [List.take_append_of_le_length hm, hstop]

theorem Subscriber.Follows.append (h : sub.Follows entries) (more : List (Entry json blake3)) :
    sub.Follows (entries ++ more) := by
  rcases h with unread | ⟨n, hn⟩
  · exact .inl unread
  · exact .inr ⟨n, hn.append more⟩

/-- The next commit of the log moves a reader one place on. -/
theorem Subscriber.At.step {n : ℕ} (h : sub.At entries n) (idle : ∀ source stop, sub.mode ≠ .reading source stop)
    {c : Commit R} (next : (lay 0 0 entries)[n]? = some c) : (sub.step c).At entries (n + 1) where
  le := by
    have := (List.getElem?_eq_some_iff.mp next).1
    rw [length_lay] at this
    exact this
  cursor := by
    obtain ⟨xs, e, ys, split, hc⟩ := mem_lay (List.mem_of_getElem? next)
    have number := number_getElem next
    have len : xs.length = n := by
      have : c.number = 0 + xs.length + 1 := by
        rw [hc]
        rfl
      omega
    have take : entries.take (n + 1) = xs ++ [e] := by
      rw [split, ← len, List.take_length_add_append, List.take_one, List.head?_cons, Option.toList_some]
    have stop : c.bytes.stop = (bytesOf (entries.take (n + 1))).length := by
      have : c.bytes.stop = 0 + (bytesOf xs).length + (e.line.length + 1) := by
        rw [hc]
        rfl
      rw [this, take]
      simp
    simp [Subscriber.step, h.cursor, Cursor.past, place, number, stop]
  seen := by
    have := (List.getElem?_eq_some_iff.mp next)
    rw [Subscriber.step, h.seen, List.take_add_one, next, Option.toList_some]
  extent := fun source stop hmode => absurd hmode (idle source stop)

/-- Reading commits back from a place moves a reader past all of them. -/
theorem Subscriber.At.absorb {n m : ℕ} (h : sub.At entries n)
    (idle : ∀ source stop, sub.mode ≠ .reading source stop) (hn : n ≤ m) (hm : m ≤ entries.length) :
    (sub.absorb ((((lay 0 0 entries).take m).drop n).map .ok)).At entries m ∧
      (sub.absorb ((((lay 0 0 entries).take m).drop n).map .ok)).mode = sub.mode := by
  obtain ⟨k, rfl⟩ : ∃ k, m = n + k := ⟨m - n, by omega⟩
  induction k generalizing n sub with
  | zero =>
    rw [Nat.add_zero, List.drop_of_length_le (by simp)]
    exact ⟨h, rfl⟩
  | succ k ih =>
    have bound : n < (lay 0 0 entries).length := by
      rw [length_lay]
      omega
    have next : (lay 0 0 entries)[n]? = some (lay 0 0 entries)[n] := List.getElem?_eq_getElem bound
    have split : ((lay 0 0 entries).take (n + (k + 1))).drop n
        = (lay 0 0 entries)[n] :: ((lay 0 0 entries).take (n + 1 + k)).drop (n + 1) := by
      rw [List.drop_eq_getElem_cons (by simp only [List.length_take]; omega), List.getElem_take]
      congr 3
      omega
    have further := ih (h.step idle next) idle (by omega) (by omega)
    rw [split, List.map_cons, Subscriber.absorb]
    have sum : n + 1 + k = n + (k + 1) := by omega
    rw [← sum]
    exact further

end Follows

/-! ## What one event can do -/

/-- Nothing more can be appended. -/
def World.Shut (w : World R) : Prop := w.poisoned = true ∨ w.log.failure ≠ none

/-- The log and its readers stand as they were; channels gain no commit. -/
structure World.Quiet (w w' : World R) : Prop where
  file : w'.file = w.file
  commits : w'.log.commits = w.log.commits
  pos : w'.log.pos = w.log.pos
  shut : w.Shut → w'.Shut
  subscribers : w'.subscribers = w.subscribers
  queues : ∀ s, commitsIn (w'.queues s) = commitsIn (w.queues s)

namespace World

theorem Quiet.refl (w : World R) : w.Quiet w := ⟨rfl, rfl, rfl, id, rfl, fun _ => rfl⟩

theorem Quiet.trans {a b c : World R} (hab : a.Quiet b) (hbc : b.Quiet c) : a.Quiet c where
  file := hbc.file.trans hab.file
  commits := hbc.commits.trans hab.commits
  pos := hbc.pos.trans hab.pos
  shut := fun h => hbc.shut (hab.shut h)
  subscribers := hbc.subscribers.trans hab.subscribers
  queues := fun s => (hbc.queues s).trans (hab.queues s)

theorem quiet_latch (w : World R) (why : String) : w.Quiet (w.latch why) where
  file := rfl
  commits := rfl
  pos := rfl
  shut := by
    intro h
    rcases h with poisoned | failed
    · exact .inl poisoned
    · refine .inr ?_
      cases hf : w.log.failure <;> simp [latch, hf]
  subscribers := rfl
  queues := fun _ => rfl

theorem quiet_synced (w : World R) (n : ℕ) : w.Quiet (w.publish (.synced n)) := by
  unfold publish
  split
  · exact Quiet.refl w
  · next channel _ =>
    refine ⟨rfl, rfl, rfl, id, rfl, ?_⟩
    intro s
    by_cases same : s = channel
    · subst same
      simp
    · simp [same]

theorem quiet_finish (w : World R) (thread : ℕ) : w.Quiet (w.finish thread) :=
  ⟨rfl, rfl, rfl, id, rfl, fun _ => rfl⟩

theorem quiet_setThread (w : World R) (thread : ℕ) (at' : Syncing) :
    w.Quiet (w.setThread thread at') :=
  ⟨rfl, rfl, rfl, id, rfl, fun _ => rfl⟩

theorem quiet_attach (w : World R) (channel : ℕ) : w.Quiet (w.attach channel) := by
  unfold attach
  split
  · exact Quiet.refl w
  · have own : w.Quiet { w with sink := some channel } := ⟨rfl, rfl, rfl, id, rfl, fun _ => rfl⟩
    exact own.trans (quiet_synced _ _)

theorem checkAvailable_cases (w : World R) :
    w.checkAvailable = (w, true) ∨ ∃ w', w.checkAvailable = (w', false) ∧ w.Quiet w' ∧
      w'.threads = w.threads ∧ w'.synced = w.synced ∧ w'.queues = w.queues ∧ w'.sink = w.sink := by
  unfold checkAvailable
  split
  · exact .inr ⟨_, rfl, w.quiet_latch _, rfl, rfl, rfl, rfl⟩
  · cases w.log.failure with
    | none => exact .inl rfl
    | some why => exact .inr ⟨w, rfl, Quiet.refl w, rfl, rfl, rfl, rfl⟩

theorem quiet_sync (w : World R) (thread : ℕ) (ok : Bool) : w.Quiet (w.sync thread ok) := by
  unfold sync
  split
  case h_1 =>
    rcases w.checkAvailable_cases with h | ⟨w', h, quiet, -⟩
    · simpa only [h] using w.quiet_setThread thread _
    · simpa only [h] using quiet
  case h_2 =>
    split
    · exact (w.quiet_latch _).trans (quiet_setThread _ _ _)
    · split <;> exact w.quiet_setThread thread _
  case h_3 =>
    split
    · exact Quiet.refl w
    · exact ⟨rfl, rfl, rfl, id, rfl, fun _ => rfl⟩
  case h_4 =>
    rcases w.checkAvailable_cases with h | ⟨w', h, quiet, -⟩
    · simpa only [h] using w.quiet_setThread thread _
    · simpa only [h] using quiet.trans (w'.quiet_finish thread)
  case h_5 =>
    split
    · exact (w.quiet_latch _).trans (quiet_finish _ _)
    · split
      · exact w.quiet_finish thread
      · exact w.quiet_setThread thread _
  case h_6 =>
    split
    · exact w.quiet_setThread thread _
    · exact (w.quiet_latch _).trans (quiet_finish _ _)
  case h_7 =>
    rename_i through _
    rcases w.checkAvailable_cases with h | ⟨w', h, quiet, -⟩
    · simp only [h]
      have marked : w.Quiet { w with synced := max w.synced through } :=
        ⟨rfl, rfl, rfl, id, rfl, fun _ => rfl⟩
      exact marked.trans ((quiet_synced _ _).trans (quiet_finish _ _))
    · simpa only [h] using quiet.trans (w'.quiet_finish thread)

end World

section Step
variable {json : Json R} {blake3 : Bytes → Bytes}

theorem History.step_none {h : History R} {event : Event R} {w : World R}
    (hstep : h.world.step json blake3 event = (w, none)) :
    h.step json blake3 event =
      ⟨w, h.minted, h.published, max h.durable (flushedBy h.world event)⟩ := by
  simp [History.step, hstep]

/-- What a reader, the file and the channels stand on: the lines written so far. -/
structure History.Held (h : History R) (entries : List (Entry json blake3)) : Prop where
  file : ∃ tail, h.world.file = bytesOf entries ++ tail ∧ (¬ h.world.Shut → tail = [])
  commits : h.world.log.commits = entries.length
  pos : h.world.log.pos = (bytesOf entries).length
  minted : h.minted = lay 0 0 entries
  published : (h.published.map (·.2)).Sublist h.minted
  queues : ∀ s, (commitsIn (h.world.queues s)).Sublist h.minted
  subscribers : ∀ s, (h.world.subscribers s).Follows entries

namespace History

theorem held_over (entries : List (Entry json blake3)) : (reopened entries).Held entries where
  file := ⟨[], by simp [reopened], fun _ => rfl⟩
  commits := rfl
  pos := rfl
  minted := rfl
  published := List.nil_sublist _
  queues := fun _ => List.nil_sublist _
  subscribers := fun _ => .inl ⟨rfl, rfl, fun _ _ h => by cases h⟩

variable {h : History R} {entries : List (Entry json blake3)}

theorem Held.quiet (held : h.Held entries) {w : World R} (quiet : h.world.Quiet w) (d : ℕ) :
    Held ⟨w, h.minted, h.published, d⟩ entries where
  file := by
    obtain ⟨tail, hfile, hopen⟩ := held.file
    exact ⟨tail, quiet.file.trans hfile, fun hshut => hopen fun shut => hshut (quiet.shut shut)⟩
  commits := quiet.commits.trans held.commits
  pos := quiet.pos.trans held.pos
  minted := held.minted
  published := held.published
  queues := by
    intro s
    show (commitsIn (w.queues s)).Sublist h.minted
    rw [quiet.queues s]
    exact held.queues s
  subscribers := by
    intro s
    show (w.subscribers s).Follows entries
    rw [quiet.subscribers]
    exact held.subscribers s

theorem Held.reader (held : h.Held entries) {queues : ℕ → List (Signal R)} {channel : ℕ}
    {sub : Subscriber R} (shrunk : ∀ s, (commitsIn (queues s)).Sublist (commitsIn (h.world.queues s)))
    (follows : sub.Follows entries) (d : ℕ) :
    Held ⟨{ h.world with queues }.setSubscriber channel sub, h.minted, h.published, d⟩ entries where
  file := held.file
  commits := held.commits
  pos := held.pos
  minted := held.minted
  published := held.published
  queues := fun s => (shrunk s).trans (held.queues s)
  subscribers := by
    intro s
    show (Function.update h.world.subscribers channel sub s).Follows entries
    by_cases same : s = channel
    · subst same
      simpa using follows
    · simpa [same] using held.subscribers s

theorem Held.panic (held : h.Held entries) (part : Bytes) :
    (h.step json blake3 (.panic part)).Held entries := by
  rw [step_none rfl]
  split
  · exact held.quiet (World.Quiet.refl _) _
  · obtain ⟨tail, hfile, -⟩ := held.file
    refine ⟨⟨tail ++ part, ?_, fun hshut => absurd (.inl rfl) hshut⟩, held.commits, held.pos,
      held.minted, held.published, held.queues, held.subscribers⟩
    show h.world.file ++ part = _
    rw [hfile, List.append_assoc]

theorem Held.since (held : h.Held entries) (channel : ℕ) (opens : Bool) :
    (h.step json blake3 (.since channel opens)).Held entries := by
  rw [step_none rfl]
  have follows := held.subscribers channel
  unfold World.since
  dsimp only
  split
  · exact held.quiet (World.Quiet.refl _) _
  · split
    · refine held.reader (fun _ => List.Sublist.refl _) ?_ _
      rcases follows with ⟨hcursor, hseen, -⟩ | ⟨n, hn⟩
      · exact .inl ⟨hcursor, hseen, fun _ _ h => by cases h⟩
      · exact .inr ⟨n, hn.le, hn.cursor, hn.seen, fun _ _ h => by cases h⟩
    · refine held.reader (fun _ => List.Sublist.refl _) ?_ _
      have extent : h.world.log.pos = (bytesOf (entries.take entries.length)).length := by
        rw [List.take_length, held.pos]
      rcases follows with ⟨hcursor, hseen, -⟩ | ⟨n, hn⟩
      · refine .inr ⟨0, Nat.zero_le _, ?_, by simpa using hseen, ?_⟩
        · simp [hcursor, place_zero]
        · rintro source stop ⟨⟩
          exact ⟨by simp [hcursor, place_zero], _, Nat.zero_le _, Nat.le_refl _, extent⟩
      · refine .inr ⟨n, hn.le, by simp [hn.cursor], hn.seen, ?_⟩
        rintro source stop ⟨⟩
        exact ⟨by simp [hn.cursor], _, hn.le, Nat.le_refl _, extent⟩

/-- Reading back, whole or cut short, moves the reader to a later place. -/
theorem Held.readBack (hj : json.Faithful) (held : h.Held entries) (channel : ℕ)
    (lines : Option ℕ) : (h.step json blake3 (.readBack channel lines)).Held entries := by
  rw [step_none rfl]
  have follows := held.subscribers channel
  unfold World.readBack
  dsimp only
  split
  next source stop reading =>
    rcases follows with ⟨-, -, never⟩ | ⟨n, hn⟩
    · exact absurd reading (never source stop)
    · obtain ⟨hsource, m, hnm, hm, hstop⟩ := hn.extent source stop reading
      obtain ⟨tail, hfile, -⟩ := held.file
      subst hsource hstop
      have idle : Subscriber.At { h.world.subscribers channel with mode := .idle } entries n :=
        ⟨hn.le, hn.cursor, hn.seen, fun _ _ h => by cases h⟩
      rw [hfile, commits_read hj hnm hm tail]
      refine held.reader (fun _ => List.Sublist.refl _) ?_ _
      have cut : ∀ k, ((((lay 0 0 entries).take m).drop n).map Except.ok).take k
          = ((((lay 0 0 entries).take (min (n + k) m)).drop n).map
              (Except.ok : Commit R → Except LineError (Commit R))) := by
        intro k
        rw [← List.map_take, List.take_drop, List.take_take]
      rw [cut]
      exact .inr ⟨_, (idle.absorb (fun _ _ h => by cases h) (by omega) (by omega)).1⟩
  next => exact held.quiet (World.Quiet.refl _) _

/-- A signal heard leaves the reader at a place of the log. -/
theorem follows_hear {sub : Subscriber R} (follows : sub.Follows entries) (idle : sub.mode = .idle)
    {signal : Signal R} (known : ∀ c, signal = .commit c → c ∈ lay 0 0 entries) :
    (sub.hear signal).Follows entries := by
  have notReading : ∀ source stop, sub.mode ≠ .reading source stop := by
    intro source stop h
    rw [idle] at h
    cases h
  cases signal with
  | synced through =>
    rcases follows with ⟨hcursor, hseen, never⟩ | ⟨n, hn⟩
    · exact .inl ⟨hcursor, hseen, never⟩
    · exact .inr ⟨n, hn.le, hn.cursor, hn.seen, hn.extent⟩
  | commit c =>
    rcases follows with ⟨hcursor, hseen, never⟩ | ⟨n, hn⟩
    · refine .inl ?_
      simp [Subscriber.hear, Subscriber.commit, hcursor, hseen]
    · refine .inr ?_
      simp only [Subscriber.hear, Subscriber.commit, hn.cursor]
      split
      · exact ⟨n, hn⟩
      · split
        · next next =>
          obtain ⟨k, hk, hc⟩ := List.mem_iff_getElem.mp (known c rfl)
          have at' : (lay 0 0 entries)[k]? = some c := by rw [List.getElem?_eq_getElem hk, hc]
          have same : k = n := by
            have := number_getElem at'
            have hnext : c.number = n + 1 := next
            omega
          subst same
          exact ⟨k + 1, hn.step notReading at'⟩
        · exact ⟨n, hn.le, rfl, hn.seen, fun _ _ h => by cases h⟩

theorem Held.drain (held : h.Held entries) (channel : ℕ) :
    (h.step json blake3 (.drain channel)).Held entries := by
  rw [step_none rfl]
  unfold World.drain
  dsimp only
  split
  next signal rest idle queue =>
    have taken : (commitsIn rest).Sublist (commitsIn (h.world.queues channel)) := by
      rw [queue]
      exact (List.sublist_cons_self signal rest).filterMap _
    refine held.reader ?_ ?_ _
    · intro s
      by_cases same : s = channel
      · subst same
        simpa using taken
      · simp [same]
    · refine follows_hear (held.subscribers channel) idle ?_
      intro c hc
      have mem : c ∈ commitsIn (h.world.queues channel) := by
        rw [mem_commitsIn, queue, hc]
        exact List.mem_cons_self
      rw [← held.minted]
      exact (held.queues channel).subset mem
  next => exact held.quiet (World.Quiet.refl _) _

/-- What a refused append leaves: the log as it was and nothing more to come. -/
theorem append_cases (hj : json.Faithful) (held : h.Held entries) (atUnixMs : ℕ)
    (records : NonEmpty R) (room : Option ℕ) :
    (∃ w part, h.world.step json blake3 (.append atUnixMs records room) = (w, none) ∧
      w.Shut ∧ h.world.Quiet { w with file := h.world.file } ∧ w.file = h.world.file ++ part ∧
      w.sink = h.world.sink) ∨
    ∃ e : Entry json blake3, ¬ h.world.Shut ∧
      h.world.step json blake3 (.append atUnixMs records room) =
        (({ h.world with
            log := ⟨entries.length + 1, (bytesOf (entries ++ [e])).length, none⟩
            file := bytesOf (entries ++ [e]) } : World R).publish
          (.commit (e.commit entries.length (bytesOf entries).length)),
          some (e.commit entries.length (bytesOf entries).length)) := by
  show (∃ w part, h.world.append json blake3 atUnixMs records room = (w, none) ∧ _) ∨
    ∃ e : Entry json blake3, _ ∧ h.world.append json blake3 atUnixMs records room = _
  unfold World.append
  by_cases poisoned : h.world.poisoned = true
  · refine .inl ⟨h.world.latch "torn", [], by simp [poisoned], .inl poisoned, ?_, by simp [World.latch], rfl⟩
    exact h.world.quiet_latch "torn"
  · rw [if_neg poisoned]
    rcases Log.append_cases blake3 hj h.world.log h.world.file atUnixMs records room with
      ⟨log', part, why, happend, hcommits, hpos, hfailure, -, -⟩ | ⟨e, -, hlive, happend⟩
    · refine .inl ⟨{ h.world with log := log', file := h.world.file ++ part }, part, ?_, .inr hfailure, ?_, rfl, rfl⟩
      · simp [happend]
      · exact ⟨rfl, hcommits, hpos, fun _ => .inr hfailure, rfl, fun _ => rfl⟩
    · obtain ⟨tail, hfile, hopen⟩ := held.file
      have live : ¬ h.world.Shut := by
        intro shut
        rcases shut with shut | shut
        · exact poisoned shut
        · exact shut hlive
      have clean := hopen live
      subst clean
      refine .inr ⟨e, live, ?_⟩
      have written : h.world.file ++ (e.line ++ [newline]) = bytesOf (entries ++ [e]) := by
        rw [hfile]
        simp
      have stop : h.world.log.pos + (e.line.length + 1) = (bytesOf (entries ++ [e])).length := by
        rw [held.pos]
        simp
      simp only [happend, held.commits, written, stop]
      rw [held.pos]

theorem Held.append (hj : json.Faithful) (held : h.Held entries) (atUnixMs : ℕ)
    (records : NonEmpty R) (room : Option ℕ) :
    ∃ entries' : List (Entry json blake3), (h.step json blake3 (.append atUnixMs records room)).Held entries' := by
  rcases append_cases hj held atUnixMs records room with
    ⟨w, part, hstep, shut, quiet, hfile, -⟩ | ⟨e, live, hstep⟩
  · refine ⟨entries, ?_⟩
    rw [step_none hstep]
    have before := held.quiet quiet (max h.durable (flushedBy h.world (.append atUnixMs records room)))
    obtain ⟨tail, htail, -⟩ := held.file
    refine ⟨⟨tail ++ part, ?_, fun hshut => absurd shut hshut⟩, before.commits, before.pos,
      before.minted, before.published, before.queues, before.subscribers⟩
    show w.file = _
    rw [hfile, htail, List.append_assoc]
  · refine ⟨entries ++ [e], ?_⟩
    have extended : lay 0 0 (entries ++ [e])
        = lay 0 0 entries ++ [e.commit entries.length (bytesOf entries).length] := by
      rw [lay_append, Nat.zero_add, Nat.zero_add]
      rfl
    have grown : ∀ {l : List (Commit R)}, l.Sublist h.minted →
        (l ++ [e.commit entries.length (bytesOf entries).length]).Sublist (lay 0 0 (entries ++ [e])) := by
      intro l hl
      rw [extended, ← held.minted]
      exact hl.append (List.Sublist.refl _)
    have kept : ∀ {l : List (Commit R)}, l.Sublist h.minted → l.Sublist (lay 0 0 (entries ++ [e])) :=
      fun hl => (List.sublist_append_left _ _).trans (grown hl)
    have minted : h.minted ++ [e.commit entries.length (bytesOf entries).length]
        = lay 0 0 (entries ++ [e]) := by rw [extended, held.minted]
    simp only [History.step, hstep, Option.toList_some, minted]
    cases sink : h.world.sink with
    | none =>
      simp only [World.publish, Option.toList_none, List.flatMap_nil, List.append_nil]
      exact ⟨⟨[], by simp, fun _ => rfl⟩, by simp, rfl, rfl, kept held.published,
        fun s => kept (held.queues s), fun s => (held.subscribers s).append [e]⟩
    | some channel =>
      simp only [World.publish, Option.toList_some, List.flatMap_cons, List.flatMap_nil,
        List.append_nil, List.map_cons, List.map_nil]
      refine ⟨⟨[], by simp, fun _ => rfl⟩, by simp, rfl, rfl, ?_, ?_,
        fun s => (held.subscribers s).append [e]⟩
      · rw [List.map_append]
        exact grown held.published
      · intro s
        by_cases same : s = channel
        · subst same
          simpa using grown (held.queues s)
        · simpa [same] using kept (held.queues s)

theorem Held.step (hj : json.Faithful) (held : h.Held entries) (event : Event R) :
    ∃ entries' : List (Entry json blake3), (h.step json blake3 event).Held entries' := by
  cases event with
  | append atUnixMs records room => exact held.append hj atUnixMs records room
  | fail why =>
    rw [step_none rfl]
    exact ⟨entries, held.quiet (h.world.quiet_latch why) _⟩
  | panic part => exact ⟨entries, held.panic part⟩
  | attach channel =>
    rw [step_none rfl]
    exact ⟨entries, held.quiet (h.world.quiet_attach channel) _⟩
  | sync thread ok =>
    rw [step_none rfl]
    exact ⟨entries, held.quiet (h.world.quiet_sync thread ok) _⟩
  | since channel opens => exact ⟨entries, held.since channel opens⟩
  | readBack channel lines => exact ⟨entries, held.readBack hj channel lines⟩
  | drain channel => exact ⟨entries, held.drain channel⟩

theorem Held.run (hj : json.Faithful) (held : h.Held entries) (events : List (Event R)) :
    ∃ entries' : List (Entry json blake3), (h.run json blake3 events).Held entries' := by
  induction events generalizing h entries with
  | nil => exact ⟨entries, held⟩
  | cons event events ih =>
    obtain ⟨entries', held'⟩ := held.step hj event
    exact ih held'

end History
end Step

end Ral.Record.Feed
