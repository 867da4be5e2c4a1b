import Ral.Record.Delivery

/-! # Subscriptions

After a failed append nothing more is acknowledged or published; the watermark stays
under what a successful sync found written; and a reader that attaches, asks the log and
drains has every commit, while the log publishes to it.
-/

namespace Ral.Record.Feed

variable {R : Type} {json : Json R} {blake3 : Bytes → Bytes}

/-! ## A shut log -/

theorem World.Shut.step {w : World R} (shut : w.Shut) (event : Event R) :
    (w.step json blake3 event).1.Shut ∧ (w.step json blake3 event).2 = none := by
  have same : ∀ {w' : World R}, w'.log = w.log → w'.poisoned = w.poisoned → w'.Shut := by
    intro w' log poisoned
    simpa only [World.Shut, log, poisoned] using shut
  cases event with
  | append atUnixMs records room =>
    show (w.append json blake3 atUnixMs records room).1.Shut ∧
      (w.append json blake3 atUnixMs records room).2 = none
    unfold World.append
    split
    · exact ⟨(w.quiet_latch _).shut shut, rfl⟩
    · next sound =>
      have failed : w.log.failure ≠ none := shut.resolve_left sound
      obtain ⟨why, hwhy⟩ := Option.ne_none_iff_exists'.mp failed
      have refused : w.log.append json blake3 w.file atUnixMs records room = (w.log, w.file, .error why) := by
        simp [Log.append, hwhy]
      simp only [refused]
      exact ⟨shut, trivial⟩
  | fail why => exact ⟨(w.quiet_latch why).shut shut, rfl⟩
  | panic part =>
    refine ⟨?_, rfl⟩
    show (if w.poisoned then w else { w with file := w.file ++ part, poisoned := true }).Shut
    split
    · exact shut
    · exact .inl rfl
  | attach channel => exact ⟨(w.quiet_attach channel).shut shut, rfl⟩
  | sync thread ok => exact ⟨(w.quiet_sync thread ok).shut shut, rfl⟩
  | since channel opens =>
    refine ⟨?_, rfl⟩
    show (w.since channel opens).Shut
    unfold World.since
    dsimp only
    split
    · exact shut
    · split <;> exact same rfl rfl
  | readBack channel lines =>
    refine ⟨?_, rfl⟩
    show (w.readBack json blake3 channel lines).Shut
    unfold World.readBack
    dsimp only
    split
    · exact same rfl rfl
    · exact shut
  | drain channel =>
    refine ⟨?_, rfl⟩
    show (w.drain channel).Shut
    unfold World.drain
    dsimp only
    split
    · exact same rfl rfl
    · exact shut

namespace History

theorem shut_run {h : History R} (shut : h.world.Shut) (events : List (Event R)) :
    (h.run json blake3 events).minted = h.minted ∧ (h.run json blake3 events).published = h.published := by
  induction events generalizing h with
  | nil => exact ⟨rfl, rfl⟩
  | cons event events ih =>
    obtain ⟨still, refused⟩ : (h.world.step json blake3 event).1.Shut ∧
        (h.world.step json blake3 event).2 = none := shut.step event
    have step := step_none (Prod.ext rfl refused : h.world.step json blake3 event = (_, none))
    have rest := ih (h := h.step json blake3 event) (by rw [step]; exact still)
    rw [step] at rest
    show ((h.step json blake3 event).run json blake3 events).minted = h.minted ∧
      ((h.step json blake3 event).run json blake3 events).published = h.published
    rw [step]
    exact rest

theorem run_append (h : History R) (xs ys : List (Event R)) :
    h.run json blake3 (xs ++ ys) = (h.run json blake3 xs).run json blake3 ys := by
  simp [run]

end History

/-! ## The watermark -/

def Syncing.Marked (written durable : ℕ) : Syncing → Prop
  | .idle | .asking => True
  | .noted through | .holding through | .checked through => through ≤ written
  | .flushing through begun => through ≤ begun ∧ begun ≤ written
  | .flushed through => through ≤ durable

theorem Syncing.Marked.mono {written written' durable durable' : ℕ} (hw : written ≤ written')
    (hd : durable ≤ durable') {at' : Syncing} (marked : at'.Marked written durable) :
    at'.Marked written' durable' := by
  cases at' with
  | idle => trivial
  | asking => trivial
  | noted through => exact Nat.le_trans marked hw
  | holding through => exact Nat.le_trans marked hw
  | checked through => exact Nat.le_trans marked hw
  | flushing through begun => exact ⟨marked.1, Nat.le_trans marked.2 hw⟩
  | flushed through => exact Nat.le_trans marked hd

/-- No watermark anywhere is past what a successful sync found written. -/
structure World.Marked (w : World R) (durable : ℕ) : Prop where
  synced : w.synced ≤ durable
  written : durable ≤ w.log.commits
  threads : ∀ t, (w.threads t).Marked w.log.commits durable
  queues : ∀ s n, .synced n ∈ w.queues s → n ≤ durable
  subscribers : ∀ s, (w.subscribers s).synced ≤ durable

namespace World.Marked

variable {w : World R} {durable : ℕ}

theorem latch (marked : w.Marked durable) (why : String) : (w.latch why).Marked durable :=
  ⟨marked.synced, marked.written, marked.threads, marked.queues, marked.subscribers⟩

theorem publish (marked : w.Marked durable) {signal : Signal R}
    (le : ∀ n, signal = .synced n → n ≤ durable) : (w.publish signal).Marked durable := by
  unfold World.publish
  split
  · exact marked
  · next channel _ =>
    refine ⟨marked.synced, marked.written, marked.threads, ?_, marked.subscribers⟩
    intro s n h
    by_cases same : s = channel
    · subst same
      simp only [Function.update_self, List.mem_append, List.mem_singleton] at h
      rcases h with h | h
      · exact marked.queues _ n h
      · exact le n h.symm
    · simp only [Function.update_of_ne same] at h
      exact marked.queues s n h

theorem setThread (marked : w.Marked durable) (thread : ℕ) {at' : Syncing}
    (sound : at'.Marked w.log.commits durable) : (w.setThread thread at').Marked durable := by
  refine ⟨marked.synced, marked.written, ?_, marked.queues, marked.subscribers⟩
  intro t
  show (Function.update w.threads thread at' t).Marked w.log.commits durable
  by_cases same : t = thread
  · subst same
    simpa using sound
  · simpa [same] using marked.threads t

theorem finish (marked : w.Marked durable) (thread : ℕ) : (w.finish thread).Marked durable := by
  have freed : ({ w with syncing := none } : World R).Marked durable :=
    ⟨marked.synced, marked.written, marked.threads, marked.queues, marked.subscribers⟩
  exact freed.setThread thread trivial

theorem attach (marked : w.Marked durable) (channel : ℕ) : (w.attach channel).Marked durable := by
  unfold World.attach
  split
  · exact marked
  · have attached : ({ w with sink := some channel } : World R).Marked durable :=
      ⟨marked.synced, marked.written, marked.threads, marked.queues, marked.subscribers⟩
    refine attached.publish ?_
    rintro n ⟨⟩
    exact marked.synced

theorem setSubscriber (marked : w.Marked durable) (channel : ℕ) {sub : Subscriber R}
    (le : sub.synced ≤ durable) : (w.setSubscriber channel sub).Marked durable := by
  refine ⟨marked.synced, marked.written, marked.threads, marked.queues, ?_⟩
  intro s
  show (Function.update w.subscribers channel sub s).synced ≤ durable
  by_cases same : s = channel
  · subst same
    simpa using le
  · simpa [same] using marked.subscribers s

theorem mono (marked : w.Marked durable) {durable' : ℕ} (le : durable ≤ durable')
    (written : durable' ≤ w.log.commits) : w.Marked durable' where
  synced := Nat.le_trans marked.synced le
  written := written
  threads := fun t => (marked.threads t).mono (Nat.le_refl _) le
  queues := fun s n h => Nat.le_trans (marked.queues s n h) le
  subscribers := fun s => Nat.le_trans (marked.subscribers s) le

theorem check (marked : w.Marked durable) {w' : World R} {ok : Bool}
    (h : w.checkAvailable = (w', ok)) : w'.Marked durable ∧ (ok = true → w' = w) := by
  unfold checkAvailable at h
  split at h
  · cases h
    exact ⟨marked.latch _, fun no => by cases no⟩
  · cases h
    exact ⟨marked, fun _ => rfl⟩

/-- A flush that succeeds makes durable what was written when it began, and only that
moves the watermark. -/
theorem sync (marked : w.Marked durable) (thread : ℕ) (ok : Bool) :
    (w.sync thread ok).Marked (max durable (flushedBy w (.sync thread ok))) := by
  have own := marked.threads thread
  have stay : ∀ {w' : World R}, w'.Marked durable → flushedBy w (.sync thread ok) = 0 →
      w'.Marked (max durable (flushedBy w (.sync thread ok))) := by
    intro w' h none
    rwa [none, Nat.max_zero]
  unfold World.sync
  split
  case h_1 pc =>
    have none : flushedBy w (.sync thread ok) = 0 := by cases ok <;> simp [flushedBy, pc]
    rcases hc : w.checkAvailable with ⟨w', _ | _⟩
    · exact stay (marked.check hc).1 none
    · exact stay ((marked.check hc).1.setThread thread trivial) none
  case h_2 pc =>
    have none : flushedBy w (.sync thread ok) = 0 := by cases ok <;> simp [flushedBy, pc]
    refine stay ?_ none
    split
    · exact (marked.latch _).setThread thread trivial
    · split
      · exact marked.setThread thread trivial
      · exact marked.setThread thread (Nat.le_refl w.log.commits)
  case h_3 through pc =>
    have none : flushedBy w (.sync thread ok) = 0 := by cases ok <;> simp [flushedBy, pc]
    refine stay ?_ none
    rw [pc] at own
    split
    · exact marked
    · have taken : ({ w with syncing := some thread } : World R).Marked durable :=
        ⟨marked.synced, marked.written, marked.threads, marked.queues, marked.subscribers⟩
      exact taken.setThread thread own
  case h_4 through pc =>
    have none : flushedBy w (.sync thread ok) = 0 := by cases ok <;> simp [flushedBy, pc]
    rw [pc] at own
    rcases hc : w.checkAvailable with ⟨w', _ | _⟩
    · exact stay ((marked.check hc).1.finish thread) none
    · obtain rfl := (marked.check hc).2 rfl
      exact stay (marked.setThread thread own) none
  case h_5 through pc =>
    have none : flushedBy w (.sync thread ok) = 0 := by cases ok <;> simp [flushedBy, pc]
    refine stay ?_ none
    rw [pc] at own
    split
    · exact (marked.latch _).finish thread
    · split
      · exact marked.finish thread
      · exact marked.setThread thread ⟨own, Nat.le_refl w.log.commits⟩
  case h_6 through begun pc =>
    rw [pc] at own
    cases ok with
    | false =>
      refine stay ?_ rfl
      exact (marked.latch _).finish thread
    | true =>
      have begunBy : flushedBy w (.sync thread true) = begun := by simp [flushedBy, pc]
      rw [begunBy, if_pos rfl]
      have grown : w.Marked (max durable begun) :=
        marked.mono (Nat.le_max_left _ _) (Nat.max_le.mpr ⟨marked.written, own.2⟩)
      exact grown.setThread thread (Nat.le_trans own.1 (Nat.le_max_right _ _))
  case h_7 through pc =>
    have none : flushedBy w (.sync thread ok) = 0 := by cases ok <;> simp [flushedBy, pc]
    rw [pc] at own
    have flushed : through ≤ durable := own
    rcases hc : w.checkAvailable with ⟨w', _ | _⟩
    · exact stay ((marked.check hc).1.finish thread) none
    · obtain rfl := (marked.check hc).2 rfl
      have raised : ({ w' with synced := max w'.synced through } : World R).Marked durable :=
        ⟨Nat.max_le.mpr ⟨marked.synced, flushed⟩, marked.written, marked.threads, marked.queues,
          marked.subscribers⟩
      refine stay ?_ none
      refine (raised.publish ?_).finish thread
      rintro n ⟨⟩
      exact raised.synced

theorem append (hj : json.Faithful) (marked : w.Marked durable) (atUnixMs : ℕ)
    (records : NonEmpty R) (room : Option ℕ) :
    (w.append json blake3 atUnixMs records room).1.Marked durable := by
  unfold World.append
  split
  · exact marked.latch _
  · have relog : ∀ {log : Log} {file : Bytes}, w.log.commits ≤ log.commits →
        ({ w with log, file } : World R).Marked durable := by
      intro log file grown
      exact ⟨marked.synced, Nat.le_trans marked.written grown,
        fun t => (marked.threads t).mono grown (Nat.le_refl _), marked.queues, marked.subscribers⟩
    rcases Log.append_cases blake3 hj w.log w.file atUnixMs records room with
      ⟨log', part, why, happend, hcommits, -⟩ | ⟨e, -, -, happend⟩
    · simp only [happend]
      exact relog (Nat.le_of_eq hcommits.symm)
    · simp only [happend]
      exact (relog (Nat.le_succ _)).publish fun n h => by cases h

theorem since (marked : w.Marked durable) (channel : ℕ) (opens : Bool) :
    (w.since channel opens).Marked durable := by
  have own := marked.subscribers channel
  unfold World.since
  dsimp only
  split
  · exact marked
  · split
    · exact marked.setSubscriber channel own
    · exact marked.setSubscriber channel (Nat.max_le.mpr ⟨own, marked.synced⟩)

end World.Marked

theorem Subscriber.synced_absorb (sub : Subscriber R) (lines : List (Except LineError (Commit R))) :
    (sub.absorb lines).synced = sub.synced := by
  induction lines generalizing sub with
  | nil => rfl
  | cons line lines ih =>
    cases line with
    | error fault => rfl
    | ok commit => exact ih (sub.step commit)

namespace World.Marked

variable {w : World R} {durable : ℕ}

theorem readBack (marked : w.Marked durable) (channel : ℕ) (lines : Option ℕ) :
    (w.readBack json blake3 channel lines).Marked durable := by
  unfold World.readBack
  dsimp only
  split
  · refine marked.setSubscriber channel ?_
    rw [Subscriber.synced_absorb]
    exact marked.subscribers channel
  · exact marked

theorem drain (marked : w.Marked durable) (channel : ℕ) : (w.drain channel).Marked durable := by
  have own := marked.subscribers channel
  unfold World.drain
  dsimp only
  split
  next signal rest idle queue =>
    have taken : ({ w with queues := Function.update w.queues channel rest } : World R).Marked durable := by
      refine ⟨marked.synced, marked.written, marked.threads, ?_, marked.subscribers⟩
      intro s n h
      by_cases same : s = channel
      · subst same
        simp only [Function.update_self] at h
        exact marked.queues s n (by rw [queue]; exact List.mem_cons_of_mem _ h)
      · simp only [Function.update_of_ne same] at h
        exact marked.queues s n h
    refine taken.setSubscriber channel ?_
    cases signal with
    | synced n =>
      have le := marked.queues channel n (by rw [queue]; exact List.mem_cons_self)
      exact Nat.max_le.mpr ⟨own, le⟩
    | commit c =>
      have same : ((w.subscribers channel).commit c).synced = (w.subscribers channel).synced := by
        unfold Subscriber.commit
        split
        · rfl
        · split
          · rfl
          · split <;> rfl
      show ((w.subscribers channel).commit c).synced ≤ durable
      rwa [same]
  next => exact marked

end World.Marked

namespace History

theorem marked_over (entries : List (Entry json blake3)) :
    (reopened entries).world.Marked (reopened entries).durable where
  synced := Nat.le_refl 0
  written := Nat.zero_le _
  threads := fun _ => trivial
  queues := fun _ _ h => by cases h
  subscribers := fun _ => Nat.le_refl 0

theorem marked_step (hj : json.Faithful) {h : History R} (marked : h.world.Marked h.durable)
    (event : Event R) : (h.step json blake3 event).world.Marked (h.step json blake3 event).durable := by
  have quiet : ∀ {w : World R}, w.Marked h.durable → w.Marked (max h.durable 0) := by
    intro w hw
    rwa [Nat.max_zero]
  cases event with
  | append atUnixMs records room => exact quiet (marked.append hj atUnixMs records room)
  | fail why => exact quiet (marked.latch why)
  | panic part =>
    refine quiet ?_
    show (if h.world.poisoned then h.world else _ : World R).Marked h.durable
    split
    · exact marked
    · exact ⟨marked.synced, marked.written, marked.threads, marked.queues, marked.subscribers⟩
  | attach channel => exact quiet (marked.attach channel)
  | sync thread ok => exact marked.sync thread ok
  | since channel opens => exact quiet (marked.since channel opens)
  | readBack channel lines => exact quiet (marked.readBack channel lines)
  | drain channel => exact quiet (marked.drain channel)

theorem marked_run (hj : json.Faithful) {h : History R} (marked : h.world.Marked h.durable)
    (events : List (Event R)) :
    (h.run json blake3 events).world.Marked (h.run json blake3 events).durable := by
  induction events generalizing h with
  | nil => exact marked
  | cons event events ih => exact ih (marked_step hj marked event)

end History

/-! ## A joined reader -/

/-- No other sink takes the channel's place. -/
def Event.Keeps (channel : ℕ) : Event R → Prop
  | .attach other => other = channel
  | _ => True

/-- The reader's own reads do not fail midway. -/
def Event.ReadsWhole (channel : ℕ) : Event R → Prop
  | .readBack reader lines => reader = channel → lines = none
  | _ => True

/-- The log publishes to the channel, and each commit is seen, queued, or in the extent
being read. -/
structure History.Joined (h : History R) (channel : ℕ) : Prop where
  sink : h.world.sink = some channel
  mode : (h.world.subscribers channel).mode ≠ .behind
  covers : ∃ cursor, (h.world.subscribers channel).cursor = some cursor ∧ ∀ c ∈ h.minted,
    c.number ≤ cursor.commit ∨ c ∈ commitsIn (h.world.queues channel) ∨
      ∃ source stop, (h.world.subscribers channel).mode = .reading source stop ∧ c.bytes.stop ≤ stop

theorem World.sink_publish (w : World R) (signal : Signal R) : (w.publish signal).sink = w.sink := by
  unfold publish
  split <;> rfl

theorem World.sink_sync (w : World R) (thread : ℕ) (ok : Bool) : (w.sync thread ok).sink = w.sink := by
  have check : ∀ {w' : World R} {ok : Bool}, w.checkAvailable = (w', ok) → w'.sink = w.sink := by
    intro w' ok h
    unfold checkAvailable at h
    split at h <;> (cases h; rfl)
  unfold sync
  split
  case h_1 | h_4 =>
    rcases hc : w.checkAvailable with ⟨w', _ | _⟩ <;> exact show w'.sink = w.sink from check hc
  case h_2 => split <;> [rfl; (split <;> rfl)]
  case h_3 => split <;> rfl
  case h_5 => split <;> [rfl; (split <;> rfl)]
  case h_6 => split <;> rfl
  case h_7 =>
    rcases hc : w.checkAvailable with ⟨w', _ | _⟩
    · exact show w'.sink = w.sink from check hc
    · have same : w'.sink = w.sink := check hc
      exact (World.sink_publish _ _).trans same

namespace History

variable {h : History R} {entries : List (Entry json blake3)} {channel : ℕ}

theorem Joined.frame (joined : h.Joined channel) {w : World R} (sink : w.sink = h.world.sink)
    (subscriber : w.subscribers channel = h.world.subscribers channel)
    (queue : commitsIn (w.queues channel) = commitsIn (h.world.queues channel))
    (published : List (ℕ × Commit R)) (d : ℕ) : Joined ⟨w, h.minted, published, d⟩ channel where
  sink := sink.trans joined.sink
  mode := by
    show (w.subscribers channel).mode ≠ _
    rw [subscriber]
    exact joined.mode
  covers := by
    show ∃ cursor, (w.subscribers channel).cursor = some cursor ∧ ∀ c ∈ h.minted,
      c.number ≤ cursor.commit ∨ c ∈ commitsIn (w.queues channel) ∨
        ∃ source stop, (w.subscribers channel).mode = .reading source stop ∧ c.bytes.stop ≤ stop
    rw [subscriber, queue]
    exact joined.covers

theorem Joined.apart (joined : h.Joined channel) {reader : ℕ} (apart : channel ≠ reader)
    (sub : Subscriber R) (published : List (ℕ × Commit R)) (d : ℕ) :
    Joined ⟨h.world.setSubscriber reader sub, h.minted, published, d⟩ channel :=
  joined.frame (w := h.world.setSubscriber reader sub) rfl (by simp [World.setSubscriber, apart])
    rfl published d

/-- A reader that asks the log while it is published to is joined: all that is written lies in
the extent, and all that follows is queued. -/
theorem Held.joins (held : h.Held entries) (sink : h.world.sink = some channel)
    (sound : h.world.poisoned = false)
    (free : ∀ source stop, (h.world.subscribers channel).mode ≠ .reading source stop) :
    (h.step json blake3 (.since channel true)).Joined channel := by
  rw [step_none rfl]
  have asked : h.world.since channel true = h.world.setSubscriber channel
      ⟨some ((h.world.subscribers channel).cursor.getD Cursor.start),
        (h.world.subscribers channel).seen,
        max (h.world.subscribers channel).synced h.world.synced,
        .reading ((h.world.subscribers channel).cursor.getD Cursor.start) h.world.log.pos⟩ := by
    unfold World.since
    dsimp only
    split
    · next source stop reading => exact absurd reading (free source stop)
    · simp [sound]
  rw [asked]
  refine ⟨sink, by simp [World.setSubscriber], ?_⟩
  simp only [World.setSubscriber, Function.update_self]
  refine ⟨_, rfl, ?_⟩
  intro c hc
  refine .inr (.inr ⟨_, _, rfl, ?_⟩)
  obtain ⟨xs, e, ys, split, rfl⟩ := mem_lay (held.minted ▸ hc)
  rw [held.pos, split]
  show 0 + (bytesOf xs).length + (e.line.length + 1) ≤ _
  simp only [bytesOf_append, bytesOf_cons, List.length_append, List.length_cons]
  omega

/-- What a joined reader next hears is at most one past its place: the commits in between
would be queued before it. -/
theorem Joined.hears_next (held : h.Held entries) (joined : h.Joined channel) {cursor : Cursor}
    (hcursor : (h.world.subscribers channel).cursor = some cursor)
    (idle : (h.world.subscribers channel).mode = .idle) {c : Commit R} {rest : List (Commit R)}
    (queue : commitsIn (h.world.queues channel) = c :: rest) : c.number ≤ cursor.commit + 1 := by
  by_contra gap
  obtain ⟨_, hcursor', covers⟩ := joined.covers
  rw [hcursor, Option.some.injEq] at hcursor'
  subst hcursor'
  have sub : (c :: rest).Sublist (lay 0 0 entries) := by
    rw [← queue, ← held.minted]
    exact held.queues channel
  have known := number_le (sub.subset List.mem_cons_self)
  have bound : cursor.commit < (lay 0 0 entries).length := by
    rw [length_lay]
    omega
  -- the first commit past the cursor is queued, yet before the queue's head
  have next := number_getElem (List.getElem?_eq_getElem bound)
  rcases covers _ (by rw [held.minted]; exact List.getElem_mem bound) with past | queued | ⟨_, _, reading, _⟩
  · omega
  · rw [queue] at queued
    rcases List.mem_cons.mp queued with same | later
    · rw [same] at next
      omega
    · have := (List.pairwise_cons.mp (sorted_lay.sublist sub)).1 _ later
      omega
  · rw [idle] at reading
    cases reading

theorem Joined.since (joined : h.Joined channel) (reader : ℕ) (opens : Bool) :
    (h.step json blake3 (.since reader opens)).Joined channel := by
  rw [step_none rfl]
  unfold World.since
  dsimp only
  by_cases same : reader = channel
  · subst same
    obtain ⟨cursor, hcursor, covers⟩ := joined.covers
    split
    · exact joined.frame rfl rfl rfl _ _
    · next free =>
      have kept : ∀ c ∈ h.minted, c.number ≤ cursor.commit ∨ c ∈ commitsIn (h.world.queues reader) := by
        intro c hc
        rcases covers c hc with past | queued | ⟨source, stop, reading, -⟩
        · exact .inl past
        · exact .inr queued
        · exact absurd reading (free source stop)
      split
      · refine ⟨joined.sink, by simp [World.setSubscriber], cursor, by simp [World.setSubscriber, hcursor], ?_⟩
        exact fun c hc => (kept c hc).imp_right .inl
      · refine ⟨joined.sink, by simp [World.setSubscriber], cursor, by simp [World.setSubscriber, hcursor], ?_⟩
        exact fun c hc => (kept c hc).imp_right .inl
  · have apart : channel ≠ reader := fun h => same h.symm
    split
    · exact joined.frame rfl rfl rfl _ _
    · split
      · exact joined.apart apart _ _ _
      · exact joined.apart apart _ _ _

theorem Joined.readBack (hj : json.Faithful) (held : h.Held entries) (joined : h.Joined channel)
    (reader : ℕ) {lines : Option ℕ} (keeps : reader = channel → lines = none) :
    (h.step json blake3 (.readBack reader lines)).Joined channel := by
  rw [step_none rfl]
  unfold World.readBack
  dsimp only
  by_cases same : reader = channel
  · subst same
    have whole := keeps rfl
    subst whole
    obtain ⟨cursor, hcursor, covers⟩ := joined.covers
    split
    · next source stop reading =>
      rcases held.subscribers reader with ⟨unread, -, -⟩ | ⟨n, hn⟩
      · rw [hcursor] at unread
        cases unread
      · obtain ⟨hsource, m, hnm, hm, hstop⟩ := hn.extent source stop reading
        obtain ⟨tail, hfile, -⟩ := held.file
        have here : cursor = place entries n := by
          have := hn.cursor
          rwa [hcursor, Option.some.injEq] at this
        subst hsource hstop here
        have idle : Subscriber.At { h.world.subscribers reader with mode := .idle } entries n :=
          ⟨hn.le, hn.cursor, hn.seen, fun _ _ h => by cases h⟩
        obtain ⟨moved, mode⟩ := idle.absorb (fun _ _ h => by cases h) hnm hm
        rw [hfile, commits_read hj hnm hm tail]
        simp only [Option.getD_none, List.take_length]
        refine ⟨joined.sink, ?_, place entries m, ?_, ?_⟩
        · simp only [World.setSubscriber, Function.update_self]
          exact fun behind => by cases mode.symm.trans behind
        · simp only [World.setSubscriber, Function.update_self]
          exact moved.cursor
        · intro c hc
          rcases covers c hc with past | queued | ⟨source, stop, reading', inside⟩
          · exact .inl (Nat.le_trans past hnm)
          · exact .inr (.inl queued)
          · rw [reading] at reading'
            cases reading'
            exact .inl (number_le_of_stop (held.minted ▸ hc) inside)
    · exact joined.frame rfl rfl rfl _ _
  · have apart : channel ≠ reader := fun h => same h.symm
    split
    · exact joined.apart apart _ _ _
    · exact joined.frame rfl rfl rfl _ _

theorem Joined.drain (held : h.Held entries) (joined : h.Joined channel) (reader : ℕ) :
    (h.step json blake3 (.drain reader)).Joined channel := by
  rw [step_none rfl]
  unfold World.drain
  dsimp only
  split
  next signal rest idle queue =>
    by_cases same : reader = channel
    · subst same
      obtain ⟨cursor, hcursor, covers⟩ := joined.covers
      have kept : ∀ c ∈ h.minted, c.number ≤ cursor.commit ∨ c ∈ commitsIn (h.world.queues reader) := by
        intro c hc
        rcases covers c hc with past | queued | ⟨source, stop, reading, -⟩
        · exact .inl past
        · exact .inr queued
        · rw [idle] at reading
          cases reading
      cases signal with
      | synced n =>
        refine ⟨joined.sink, by simp [World.setSubscriber, Subscriber.hear, idle], cursor,
          by simp [World.setSubscriber, Subscriber.hear, hcursor], ?_⟩
        intro c hc
        refine (kept c hc).imp_right fun queued => .inl ?_
        simpa [World.setSubscriber, queue] using queued
      | commit head =>
        have first : commitsIn (h.world.queues reader) = head :: commitsIn rest := by
          rw [queue]
          rfl
        have le := joined.hears_next held hcursor idle first
        have rest_or : ∀ c ∈ h.minted, c.number ≤ cursor.commit ∨ c = head ∨ c ∈ commitsIn rest := by
          intro c hc
          have := kept c hc
          rwa [first, List.mem_cons] at this
        by_cases repeated : head.number < cursor.next
        · have skipped : (h.world.subscribers reader).hear (.commit head) = h.world.subscribers reader := by
            simp [Subscriber.hear, Subscriber.commit, hcursor, repeated]
          refine ⟨joined.sink, by simp [World.setSubscriber, skipped, idle], cursor,
            by simp [World.setSubscriber, skipped, hcursor], ?_⟩
          intro c hc
          rcases rest_or c hc with past | rfl | queued
          · exact .inl past
          · exact .inl (Nat.le_of_lt_succ repeated)
          · exact .inr (.inl (by simpa [World.setSubscriber] using queued))
        · have next : head.number = cursor.next := by
            have : ¬ head.number < cursor.commit + 1 := repeated
            show head.number = cursor.commit + 1
            omega
          have stepped : (h.world.subscribers reader).hear (.commit head)
              = (h.world.subscribers reader).step head := by
            simp [Subscriber.hear, Subscriber.commit, hcursor, next]
          refine ⟨joined.sink, by simp [World.setSubscriber, stepped, Subscriber.step, idle],
            Cursor.past head, by simp [World.setSubscriber, stepped, Subscriber.step, hcursor], ?_⟩
          intro c hc
          have past_head : cursor.commit + 1 = (Cursor.past head).commit := next.symm
          rcases rest_or c hc with past | rfl | queued
          · exact .inl (by omega)
          · exact .inl (Nat.le_refl _)
          · exact .inr (.inl (by simpa [World.setSubscriber] using queued))
    · have apart : channel ≠ reader := fun h => same h.symm
      refine joined.frame ?_ ?_ ?_ _ _
      · rfl
      · simp [World.setSubscriber, apart]
      · simp [World.setSubscriber, apart]
  next => exact joined.frame rfl rfl rfl _ _

theorem Joined.append (hj : json.Faithful) (held : h.Held entries) (joined : h.Joined channel)
    (atUnixMs : ℕ) (records : NonEmpty R) (room : Option ℕ) :
    (h.step json blake3 (.append atUnixMs records room)).Joined channel := by
  rcases append_cases hj held atUnixMs records room with
    ⟨w, part, hstep, -, quiet, -, sink⟩ | ⟨e, -, hstep⟩
  · rw [step_none hstep]
    refine joined.frame ?_ ?_ ?_ _ _
    · exact sink
    · exact congrFun quiet.subscribers channel
    · exact quiet.queues channel
  · obtain ⟨cursor, hcursor, covers⟩ := joined.covers
    have published := joined.sink
    simp only [History.step, hstep, World.publish, published]
    refine ⟨rfl, joined.mode, cursor, hcursor, ?_⟩
    intro c hc
    simp only [Function.update_self, commitsIn_append, commitsIn_commit, commitsIn_nil, List.mem_append]
    rcases List.mem_append.mp hc with old | new
    · rcases covers c old with past | queued | reading
      · exact .inl past
      · exact .inr (.inl (.inl queued))
      · exact .inr (.inr reading)
    · exact .inr (.inl (.inr new))

theorem Joined.step (hj : json.Faithful) (held : h.Held entries) (joined : h.Joined channel)
    {event : Event R} (keeps : event.Keeps channel) (whole : event.ReadsWhole channel) :
    (h.step json blake3 event).Joined channel := by
  cases event with
  | append atUnixMs records room => exact joined.append hj held atUnixMs records room
  | fail why =>
    rw [step_none rfl]
    refine joined.frame ?_ ?_ ?_ _ _ <;> rfl
  | panic part =>
    rw [step_none rfl]
    refine joined.frame ?_ ?_ ?_ _ _ <;> (split <;> rfl)
  | attach other =>
    have same : other = channel := keeps
    subst same
    rw [step_none rfl]
    refine joined.frame ?_ ?_ ?_ _ _
    · unfold World.attach
      split
      · rfl
      · exact (World.sink_publish _ _).trans joined.sink.symm
    · rw [(h.world.quiet_attach other).subscribers]
    · exact (h.world.quiet_attach other).queues other
  | sync thread ok =>
    rw [step_none rfl]
    refine joined.frame ?_ ?_ ?_ _ _
    · exact h.world.sink_sync thread ok
    · rw [(h.world.quiet_sync thread ok).subscribers]
    · exact (h.world.quiet_sync thread ok).queues channel
  | since reader opens => exact joined.since reader opens
  | readBack reader lines => exact joined.readBack hj held reader whole
  | drain reader => exact joined.drain held reader

theorem Joined.run (hj : json.Faithful) (held : h.Held entries) (joined : h.Joined channel)
    {events : List (Event R)} (keeps : ∀ e ∈ events, e.Keeps channel)
    (whole : ∀ e ∈ events, e.ReadsWhole channel) : (h.run json blake3 events).Joined channel := by
  induction events generalizing h entries with
  | nil => exact joined
  | cons event events ih =>
    obtain ⟨entries', held'⟩ := held.step hj event
    have next := joined.step hj held (keeps event List.mem_cons_self) (whole event List.mem_cons_self)
    exact ih held' next (fun e he => keeps e (List.mem_cons_of_mem _ he))
      fun e he => whole e (List.mem_cons_of_mem _ he)

/-- A joined reader with nothing left to read has seen every commit. -/
theorem Joined.seen (held : h.Held entries) (joined : h.Joined channel)
    (idle : (h.world.subscribers channel).mode = .idle)
    (drained : commitsIn (h.world.queues channel) = []) :
    (h.world.subscribers channel).seen = h.minted := by
  obtain ⟨cursor, hcursor, covers⟩ := joined.covers
  rcases held.subscribers channel with ⟨unread, -, -⟩ | ⟨n, hn⟩
  · rw [hcursor] at unread
    cases unread
  · have here : cursor = place entries n := by
      have := hn.cursor
      rwa [hcursor, Option.some.injEq] at this
    rw [hn.seen, held.minted]
    apply List.take_of_length_le
    by_contra short
    have bound : n < (lay 0 0 entries).length := by omega
    have next := number_getElem (List.getElem?_eq_getElem bound)
    rcases covers _ (by rw [held.minted]; exact List.getElem_mem bound) with past | queued | ⟨_, _, reading, _⟩
    · have : (place entries n).commit = n := rfl
      rw [here] at past
      omega
    · rw [drained] at queued
      cases queued
    · rw [idle] at reading
      cases reading

end History

/-! ## What a subscriber sees -/

/-- The sink an attachment leaves, in force until another attaches. -/
theorem History.sink_run {h : History R} {channel : ℕ} {events : List (Event R)}
    (sink : h.world.sink = some channel) (keeps : ∀ e ∈ events, e.Keeps channel) :
    (h.run json blake3 events).world.sink = some channel := by
  induction events generalizing h with
  | nil => exact sink
  | cons event events ih =>
    refine ih ?_ fun e he => keeps e (List.mem_cons_of_mem _ he)
    have kept := keeps event List.mem_cons_self
    show (h.world.step json blake3 event).1.sink = some channel
    cases event with
    | append atUnixMs records room =>
      show (h.world.append json blake3 atUnixMs records room).1.sink = some channel
      unfold World.append
      split
      · exact sink
      · split
        · exact (World.sink_publish _ _).trans sink
        · exact sink
    | fail why => exact sink
    | panic part =>
      show (if h.world.poisoned then h.world else _ : World R).sink = some channel
      split <;> exact sink
    | attach other =>
      have same : other = channel := kept
      subst same
      show (h.world.attach other).sink = some other
      unfold World.attach
      split
      · exact sink
      · exact World.sink_publish _ _
    | sync thread ok => exact (h.world.sink_sync thread ok).trans sink
    | since reader opens =>
      show (h.world.since reader opens).sink = some channel
      unfold World.since
      dsimp only
      split
      · exact sink
      · split <;> exact sink
    | readBack reader lines =>
      show (h.world.readBack json blake3 reader lines).sink = some channel
      unfold World.readBack
      dsimp only
      split <;> exact sink
    | drain reader =>
      show (h.world.drain reader).sink = some channel
      unfold World.drain
      dsimp only
      split <;> exact sink

/-- In any interleaving over a log's lines: the commits are the lines written; each is published
at most once, in order, and a reader has seen exactly those up to its cursor; past a failed append
none is acknowledged or published; no watermark passes what a successful sync found written; and a
reader that attached, then asked the log, and has drained, has seen every commit, as long as no
other sink took its channel's place. -/
theorem publishes_once_in_order (hj : json.Faithful) (entries : List (Entry json blake3))
    (events : List (Event R)) :
    let run := (History.reopened entries).run json blake3
    let h := run events
    (∃ written : List (Entry json blake3), bytesOf written <+: h.world.file ∧
      h.minted = lay 0 0 written) ∧
    Contiguous 0 0 h.minted ∧
    (h.published.map (·.2)).Sublist h.minted ∧
    (∀ s, (commitsIn (h.world.queues s)).Sublist h.minted ∧
      (h.world.subscribers s).seen
        = h.minted.take (((h.world.subscribers s).cursor.map (·.commit)).getD 0)) ∧
    (∀ before atUnixMs records room after,
      events = before ++ .append atUnixMs records room :: after →
      ((run before).world.step json blake3 (.append atUnixMs records room)).2 = none →
        h.minted = (run before).minted ∧ h.published = (run before).published) ∧
    (h.world.synced ≤ h.durable ∧ h.durable ≤ h.minted.length ∧
      ∀ s, (∀ n, .synced n ∈ h.world.queues s → n ≤ h.durable) ∧
        (h.world.subscribers s).synced ≤ h.durable) ∧
    ∀ channel before between after,
      events = before ++ .attach channel :: (between ++ .since channel true :: after) →
      (∀ e ∈ between ++ after, e.Keeps channel) → (∀ e ∈ after, e.ReadsWhole channel) →
      (run before).world.poisoned = false →
      let asked := run (before ++ .attach channel :: between)
      asked.world.poisoned = false →
      (∀ source stop, (asked.world.subscribers channel).mode ≠ .reading source stop) →
      (h.world.subscribers channel).mode = .idle → commitsIn (h.world.queues channel) = [] →
        (h.world.subscribers channel).seen = h.minted := by
  intro run h
  have held : ∀ es, ∃ entries' : List (Entry json blake3), (run es).Held entries' :=
    fun es => (History.held_over entries).run hj es
  obtain ⟨written, stands⟩ := held events
  have marked : h.world.Marked h.durable :=
    History.marked_run hj (History.marked_over entries) events
  refine ⟨⟨written, ?_, stands.minted⟩, ?_, stands.published, ?_, ?_, ?_, ?_⟩
  · obtain ⟨tail, hfile, -⟩ := stands.file
    exact ⟨tail, hfile.symm⟩
  · rw [stands.minted]
    exact contiguous_lay 0 0 written
  · intro s
    refine ⟨stands.queues s, ?_⟩
    rcases stands.subscribers s with ⟨hcursor, hseen, -⟩ | ⟨n, hn⟩
    · simp [h, hcursor, hseen]
    · rw [hn.cursor, hn.seen, stands.minted]
      rfl
  · intro before atUnixMs records room after split refused
    obtain ⟨standing, hbefore⟩ := held before
    rcases History.append_cases hj hbefore atUnixMs records room with
      ⟨w, part, hstep, shut, -⟩ | ⟨e, -, hstep⟩
    · have stopped := History.step_none hstep
      have whole : h = ((run before).step json blake3 (.append atUnixMs records room)).run json blake3 after := by
        show run events = _
        rw [split]
        exact History.run_append _ before _
      have closed : ((run before).step json blake3 (.append atUnixMs records room)).world.Shut := by
        rw [stopped]
        exact shut
      obtain ⟨minted, published⟩ : (((run before).step json blake3
            (.append atUnixMs records room)).run json blake3 after).minted = _ ∧ _ :=
        History.shut_run closed after
      rw [whole, minted, published, stopped]
      exact ⟨rfl, rfl⟩
    · rw [hstep] at refused
      cases refused
  · have written_le : h.durable ≤ h.minted.length := by
      rw [stands.minted, length_lay, ← stands.commits]
      exact marked.written
    exact ⟨marked.synced, written_le, fun s => ⟨marked.queues s, marked.subscribers s⟩⟩
  · intro channel before between after split keeps whole sound asked soundAsked free idle drained
    obtain ⟨standing, hasked⟩ := held (before ++ .attach channel :: between)
    have attached : ((run before).step json blake3 (.attach channel)).world.sink = some channel := by
      show ((run before).world.attach channel).sink = some channel
      unfold World.attach
      rw [if_neg (by simp [sound])]
      exact World.sink_publish _ _
    have askedRun : asked = ((run before).step json blake3 (.attach channel)).run json blake3 between :=
      History.run_append _ before _
    have sink : asked.world.sink = some channel := by
      rw [askedRun]
      exact History.sink_run attached fun e he => keeps e (List.mem_append_left _ he)
    have joins := hasked.joins sink soundAsked free
    have final : h = (asked.step json blake3 (.since channel true)).run json blake3 after := by
      show run events = _
      rw [split]
      have : run ((before ++ .attach channel :: between) ++ .since channel true :: after)
          = asked.run json blake3 (.since channel true :: after) := History.run_append _ _ _
      rw [List.append_assoc, List.cons_append] at this
      exact this
    have joined : h.Joined channel := by
      rw [final]
      exact joins.run hj (hasked.since channel true)
        (fun e he => keeps e (List.mem_append_right _ he)) whole
    exact joined.seen stands idle drained

/-- A commit appended while the reader catches up reaches it once, by its channel. -/
theorem publishes_once_in_order_caught_up :
    let h := (History.reopened ([] : List (Entry clearedJson clearedHash))).run clearedJson clearedHash
      [.append 0 ⟨(), []⟩ none, .attach 0, .since 0 true, .append 0 ⟨(), []⟩ none, .readBack 0 none,
        .drain 0, .drain 0]
    h.minted.length = 2 ∧ (h.world.subscribers 0).seen = h.minted := by
  have h := publishes_once_in_order clearedJson_faithful ([] : List (Entry clearedJson clearedHash))
    [.append 0 ⟨(), []⟩ none, .attach 0, .since 0 true, .append 0 ⟨(), []⟩ none, .readBack 0 none,
      .drain 0, .drain 0]
  refine ⟨by decide +kernel, ?_⟩
  refine h.2.2.2.2.2.2 0 [.append 0 ⟨(), []⟩ none] [] [.append 0 ⟨(), []⟩ none, .readBack 0 none,
      .drain 0, .drain 0] rfl ?_ ?_ (by decide +kernel) (by decide +kernel) ?_ (by decide +kernel) ?_
  · simp [Event.Keeps]
  · simp [Event.ReadsWhole]
  · intro source stop reading
    have idle : ∀ mode : Mode, mode = .idle → mode ≠ .reading source stop := by
      intro mode hidle hreading
      rw [hidle] at hreading
      cases hreading
    exact idle _ (by decide +kernel) reading
  · exact List.eq_nil_of_length_eq_zero (by decide +kernel)

/-- A reader whose channel another has displaced drains what it has and misses the next commit. -/
theorem subscriber_displaced :
    let h := (History.reopened ([] : List (Entry clearedJson clearedHash))).run clearedJson clearedHash
      [.attach 0, .since 0 true, .readBack 0 none, .attach 1, .append 0 ⟨(), []⟩ none, .drain 0]
    (h.world.subscribers 0).mode = .idle ∧ h.world.queues 0 = [] ∧
      (h.world.subscribers 0).seen ≠ h.minted := by
  refine ⟨by decide +kernel, List.eq_nil_of_length_eq_zero (by decide +kernel), ?_⟩
  intro same
  have counts := congrArg List.length same
  revert counts
  decide +kernel

end Ral.Record.Feed
