import Ral.Worker.Handle

/-! # One claim, one publication

What holds of a handle whatever its threads do: where its cell is in its life, what
was claimed by then, and how much of what was written its completion has.
-/

namespace Ral.Worker

open Ral.Eval

namespace Handle

/-- Not ended: running unclaimed, or claimed and stopping under a struck node. -/
inductive Live (h : Handle) : Prop
  | running : h.state = .running → h.visited = [.running] → h.claims = [] → Live h
  | stopping : h.state = .stopping → h.visited = [.running, .stopping] → h.claims = [.stopped] →
      h.cancelled = true → Live h

/-- Ended with that completion, and claimed at most once. -/
inductive Over (h : Handle) (c : CompletedHandle) (stamp : Stamp) : Prop
  | ready : h.state = .ended stamp (some c) → h.visited = [.running, .ready] → h.claims = [] → Over h c stamp
  | claimed : h.state = .ended stamp none → h.visited = [.running, .ready, .consumed] →
      h.claims = [.obtained c] ∨ h.claims = [.discarded c] → Over h c stamp
  | stopped : h.state = .ended stamp none → h.visited = [.running, .stopping, .consumed] →
      h.claims = [.stopped] → Over h c stamp

/-- Drained at a moment between two: what had been written then, up to the cap. -/
def Drained (before after bytes : List UInt8) : Prop :=
  ∃ written, before <+: written ∧ written <+: after ∧
    bytes = CapturedBytes.retained sinkBufferCap truncMarker written

/-- The caps of a worker's buffers. -/
structure Capped (h : Handle) : Prop where
  stdout : h.stdout.cap = sinkBufferCap ∧ h.stdout.marker = truncMarker
  stderr : h.stderr.cap = sinkBufferCap ∧ h.stderr.marker = truncMarker

/-- Where a handle stands. -/
inductive Stands (h : Handle) : Prop
  | live : h.holder = .free ∨ (h.holder = .stopping ∧ h.state = .running ∧ h.cancelled = true) → h.Live →
      h.permit = .held → h.before = none → h.completions = [] → h.stdout.Holds h.written.1 →
      h.stderr.Holds h.written.2 → Stands h
  | publishing (e : End) (m : List UInt8 × List UInt8) : h.holder = .publishing e → h.Live →
      h.permit ≠ .held → h.before = some m → h.completions = [] → m.1 <+: h.written.1 →
      m.2 <+: h.written.2 → h.stdout.Holds h.written.1 → h.stderr.Holds h.written.2 → Stands h
  | drainedOut (e : End) (m : List UInt8 × List UInt8) (out : List UInt8) : h.holder = .drainedOut e out →
      h.Live → h.permit ≠ .held → h.before = some m → h.completions = [] → Drained m.1 h.written.1 out →
      m.2 <+: h.written.2 → h.stderr.Holds h.written.2 → Stands h
  | drained (e : End) (m : List UInt8 × List UInt8) (out err : List UInt8) :
      h.holder = .drained e out err → h.Live → h.permit ≠ .held → h.before = some m → h.completions = [] →
      Drained m.1 h.written.1 out → Drained m.2 h.written.2 err → Stands h
  | settled (c : CompletedHandle) (stamp : Stamp) (m : List UInt8 × List UInt8) : h.holder = .free →
      h.Over c stamp → h.permit ≠ .held → h.before = some m → h.completions = [c] →
      Drained m.1 h.written.1 c.stdout → Drained m.2 h.written.2 c.stderr → Stands h

theorem Drained.mono {before after bytes : List UInt8} (h : Drained before after bytes) (more : List UInt8) :
    Drained before (after ++ more) bytes := by
  obtain ⟨written, front, back, eq⟩ := h
  exact ⟨written, front, back.trans (List.prefix_append _ _), eq⟩

theorem drained_of_holds {b : CapturedBytes} {before written : List UInt8}
    (caps : b.cap = sinkBufferCap ∧ b.marker = truncMarker) (holds : b.Holds written)
    (front : before <+: written) : Drained before written b.take.1 := by
  refine ⟨written, front, List.prefix_rfl, ?_⟩
  have bytes := holds.1
  rw [caps.1, caps.2] at bytes
  exact bytes

theorem capped_fresh (title : String) : (fresh title).Capped := ⟨⟨rfl, rfl⟩, ⟨rfl, rfl⟩⟩

theorem stands_fresh (title : String) : (fresh title).Stands :=
  .live (Or.inl rfl) (.running rfl rfl rfl) rfl rfl rfl (CapturedBytes.holds_limited _ _)
    (CapturedBytes.holds_limited _ _)

variable {h h' : Handle}

theorem Capped.publish (k : h.Capped) (e : End) : (h.publish e).Capped := by
  unfold Handle.publish
  split <;> exact ⟨k.stdout, k.stderr⟩

theorem Capped.step (k : h.Capped) (step : Step h h') : h'.Capped := by
  cases step with
  | claimReady free =>
    unfold Handle.claimReady
    split <;> exact ⟨k.stdout, k.stderr⟩
  | claimAndStop free =>
    unfold Handle.claimAndStop
    split <;> exact ⟨k.stdout, k.stderr⟩
  | finish e held free => exact ⟨(k.publish e).stdout, (k.publish e).stderr⟩
  | drop left free => exact ⟨(k.publish _).stdout, (k.publish _).stderr⟩
  | _ => exact ⟨k.stdout, k.stderr⟩

theorem Stands.free (s : h.Stands) (free : h.holder = .free) :
    (h.Live ∧ h.permit = .held ∧ h.before = none ∧ h.completions = [] ∧ h.stdout.Holds h.written.1 ∧
      h.stderr.Holds h.written.2) ∨
    ∃ c stamp m, h.Over c stamp ∧ h.permit ≠ .held ∧ h.before = some m ∧ h.completions = [c] ∧
      Drained m.1 h.written.1 c.stdout ∧ Drained m.2 h.written.2 c.stderr := by
  cases s with
  | live hold live permit before none out err => exact Or.inl ⟨live, permit, before, none, out, err⟩
  | publishing e m hold => simp [free] at hold
  | drainedOut e m out hold => simp [free] at hold
  | drained e m out err hold => simp [free] at hold
  | settled c stamp m hold over' permit before one out err =>
    exact Or.inr ⟨c, stamp, m, over', permit, before, one, out, err⟩

theorem Live.publish (l : h.Live) (e : End) :
    h.publish e = { h with holder := .publishing e, before := some (h.before.getD h.written) } := by
  unfold Handle.publish
  cases l with
  | running state visited claims => simp [state]
  | stopping state visited claims cancelled => simp [state]

theorem Over.publish {c : CompletedHandle} {stamp : Stamp} (o : h.Over c stamp) (e : End) :
    h.publish e = h := by
  unfold Handle.publish
  cases o with
  | ready state visited claims => simp [state]
  | claimed state visited claims => simp [state]
  | stopped state visited claims => simp [state]

theorem Live.congr (l : h.Live) (state : h'.state = h.state) (visited : h'.visited = h.visited)
    (claims : h'.claims = h.claims) (cancelled : h.cancelled = true → h'.cancelled = true) : h'.Live := by
  cases l with
  | running s v c => exact .running (state.trans s) (visited.trans v) (claims.trans c)
  | stopping s v c k => exact .stopping (state.trans s) (visited.trans v) (claims.trans c) (cancelled k)

theorem Over.congr {c : CompletedHandle} {stamp : Stamp} (o : h.Over c stamp) (state : h'.state = h.state)
    (visited : h'.visited = h.visited) (claims : h'.claims = h.claims) : h'.Over c stamp := by
  cases o with
  | ready s v k => exact .ready (state.trans s) (visited.trans v) (claims.trans k)
  | claimed s v k => exact .claimed (state.trans s) (visited.trans v) (claims ▸ k)
  | stopped s v k => exact .stopped (state.trans s) (visited.trans v) (claims.trans k)

theorem Stands.publish (s : h.Stands) (free : h.holder = .free) (e : End) {p : Permit} (spent : p ≠ .held) :
    ({ h.publish e with permit := p } : Handle).Stands := by
  rcases s.free free with ⟨live, _, before, none, out, err⟩ | ⟨c, stamp, m, over', _, before, one, out, err⟩
  · rw [live.publish, before]
    exact .publishing e h.written rfl (live.congr rfl rfl rfl id) spent rfl none List.prefix_rfl
      List.prefix_rfl out err
  · rw [over'.publish]
    exact .settled c stamp m free (over'.congr rfl rfl rfl) spent before one out err

theorem Stands.write (s : h.Stands) (bs : List UInt8) :
    ({ h with stdout := h.stdout.append bs, written := (h.written.1 ++ bs, h.written.2) } : Handle).Stands := by
  have grown : h.written.1 <+: h.written.1 ++ bs := List.prefix_append _ _
  cases s with
  | live hold live permit before none out err =>
    exact .live hold (live.congr rfl rfl rfl id) permit before none (out.append bs) err
  | publishing e m hold live permit before none front front' out err =>
    exact .publishing e m hold (live.congr rfl rfl rfl id) permit before none (front.trans grown) front'
      (out.append bs) err
  | drainedOut e m out hold live permit before none drained front err =>
    exact .drainedOut e m out hold (live.congr rfl rfl rfl id) permit before none (drained.mono bs) front err
  | drained e m out err hold live permit before none drained drained' =>
    exact .drained e m out err hold (live.congr rfl rfl rfl id) permit before none (drained.mono bs) drained'
  | settled c stamp m hold over' permit before one drained drained' =>
    exact .settled c stamp m hold (over'.congr rfl rfl rfl) permit before one (drained.mono bs) drained'

theorem Stands.writeErr (s : h.Stands) (bs : List UInt8) :
    ({ h with stderr := h.stderr.append bs, written := (h.written.1, h.written.2 ++ bs) } : Handle).Stands := by
  have grown : h.written.2 <+: h.written.2 ++ bs := List.prefix_append _ _
  cases s with
  | live hold live permit before none out err =>
    exact .live hold (live.congr rfl rfl rfl id) permit before none out (err.append bs)
  | publishing e m hold live permit before none front front' out err =>
    exact .publishing e m hold (live.congr rfl rfl rfl id) permit before none front (front'.trans grown) out
      (err.append bs)
  | drainedOut e m out hold live permit before none drained front err =>
    exact .drainedOut e m out hold (live.congr rfl rfl rfl id) permit before none drained
      (front.trans grown) (err.append bs)
  | drained e m out err hold live permit before none drained drained' =>
    exact .drained e m out err hold (live.congr rfl rfl rfl id) permit before none drained (drained'.mono bs)
  | settled c stamp m hold over' permit before one drained drained' =>
    exact .settled c stamp m hold (over'.congr rfl rfl rfl) permit before one drained (drained'.mono bs)

theorem Stands.strike (s : h.Stands) : ({ h with cancelled := true } : Handle).Stands := by
  cases s with
  | live hold live permit before none out err =>
    refine .live ?_ (live.congr rfl rfl rfl fun _ => rfl) permit before none out err
    exact hold.imp id fun held => ⟨held.1, held.2.1, rfl⟩
  | publishing e m hold live permit before none front front' out err =>
    exact .publishing e m hold (live.congr rfl rfl rfl fun _ => rfl) permit before none front front' out err
  | drainedOut e m out hold live permit before none drained front err =>
    exact .drainedOut e m out hold (live.congr rfl rfl rfl fun _ => rfl) permit before none drained front err
  | drained e m out err hold live permit before none drained drained' =>
    exact .drained e m out err hold (live.congr rfl rfl rfl fun _ => rfl) permit before none drained drained'
  | settled c stamp m hold over' permit before one drained drained' =>
    exact .settled c stamp m hold (over'.congr rfl rfl rfl) permit before one drained drained'

theorem Stands.taken (s : h.Stands) (free : h.holder = .free) {stamp : Stamp} {c : CompletedHandle}
    (ready : h.state = .ended stamp (some c)) {claim : Claim}
    (won : claim = .obtained c ∨ claim = .discarded c) :
    ({ h.enter (.ended stamp none) with claims := h.claims ++ [claim] } : Handle).Stands := by
  rcases s.free free with ⟨live, _⟩ | ⟨c', stamp', m, over', permit, before, one, out, err⟩
  · cases live with
    | running state => simp [state] at ready
    | stopping state => simp [state] at ready
  · cases over' with
    | ready state visited claims =>
      rw [state] at ready
      cases ready
      refine .settled c stamp m free (.claimed rfl ?_ ?_) permit before one out err
      · simp [enter, visited, HandleState.phase]
      · rw [claims, List.nil_append]
        exact won.imp (fun eq => by rw [eq]) fun eq => by rw [eq]
    | claimed state => simp [state] at ready
    | stopped state => simp [state] at ready

theorem Stands.claimReady (s : h.Stands) (free : h.holder = .free) : h.claimReady.Stands := by
  unfold Handle.claimReady
  split
  · next stamp c ready => exact s.taken free ready (Or.inl rfl)
  · exact s

theorem Stands.claimAndStop (s : h.Stands) (free : h.holder = .free) : h.claimAndStop.Stands := by
  unfold Handle.claimAndStop
  split
  · next running =>
      rcases s.free free with ⟨live, permit, before, none, out, err⟩ | ⟨c, stamp, m, over', _⟩
      · refine .live (Or.inr ⟨rfl, running, rfl⟩) (live.congr rfl rfl rfl fun _ => rfl) permit before none
          out err
      · cases over' with
        | ready state => simp [state] at running
        | claimed state => simp [state] at running
        | stopped state => simp [state] at running
  · exact s
  · next stamp c ready => exact s.taken free ready (Or.inr rfl)
  · exact s

theorem Stands.stop (s : h.Stands) (holding : h.holder = .stopping) :
    ({ h.enter .stopping with holder := .free, claims := h.claims ++ [.stopped] } : Handle).Stands := by
  cases s with
  | live hold live permit before none out err =>
    rcases hold with free | ⟨_, running, cancelled⟩
    · simp [holding] at free
    · cases live with
      | running state visited claims =>
        refine .live (Or.inl rfl) (.stopping rfl ?_ ?_ cancelled) permit before none out err
        · simp [enter, visited, HandleState.phase]
        · simp [claims]
      | stopping state => simp [state] at running
  | publishing e m hold => simp [holding] at hold
  | drainedOut e m out hold => simp [holding] at hold
  | drained e m out err hold => simp [holding] at hold
  | settled c stamp m hold => simp [holding] at hold

theorem Stands.install (s : h.Stands) {e : End} {out err : List UInt8} (holding : h.holder = .drained e out err)
    (stamp : Stamp) : (h.installTerminal ⟨out, err, e⟩ stamp).Stands := by
  cases s with
  | live hold =>
    rcases hold with free | stopping
    · simp [holding] at free
    · simp [holding] at stopping
  | publishing e m hold => simp [holding] at hold
  | drainedOut e m out hold => simp [holding] at hold
  | drained e' m out' err' hold live permit before none drained drained' =>
    rw [holding] at hold
    cases hold
    refine .settled ⟨out, err, e⟩ stamp m rfl ?_ permit before ?_ drained drained'
    · cases live with
      | running state visited claims =>
        refine .ready ?_ ?_ claims
        · simp [installTerminal, enter, state]
        · simp [installTerminal, enter, state, visited, HandleState.phase]
      | stopping state visited claims cancelled =>
        refine .stopped ?_ ?_ claims
        · simp [installTerminal, enter, state]
        · simp [installTerminal, enter, state, visited, HandleState.phase]
    · simp [installTerminal, enter, none]
  | settled c stamp m hold => simp [holding] at hold

theorem Stands.step (s : h.Stands) (k : h.Capped) (step : Step h h') : h'.Stands := by
  cases step with
  | write bs => exact s.write bs
  | writeErr bs => exact s.writeErr bs
  | strike => exact s.strike
  | claimReady free => exact s.claimReady free
  | claimAndStop free => exact s.claimAndStop free
  | stop holding => exact s.stop holding
  | finish e held free => exact s.publish free e (by simp)
  | drop left free => exact s.publish free _ (by simp)
  | drainOut e holding =>
    cases s with
    | publishing e' m hold live permit before none front front' out err =>
      exact .drainedOut e m _ rfl (live.congr rfl rfl rfl id) permit before none
        (drained_of_holds k.stdout out front) front' err
    | live hold => rcases hold with free | stopping <;> simp_all
    | drainedOut e m out hold => simp [holding] at hold
    | drained e m out err hold => simp [holding] at hold
    | settled c stamp m hold => simp [holding] at hold
  | drainErr e out holding =>
    cases s with
    | drainedOut e' m out' hold live permit before none drained front err =>
      rw [holding] at hold
      cases hold
      exact .drained e m out _ rfl (live.congr rfl rfl rfl id) permit before none drained
        (drained_of_holds k.stderr err front)
    | live hold => rcases hold with free | stopping <;> simp_all
    | publishing e m hold => simp [holding] at hold
    | drained e m out err hold => simp [holding] at hold
    | settled c stamp m hold => simp [holding] at hold
  | install e out err stamp holding => exact s.install holding stamp

theorem stands_run {title : String} (run : Runs (fresh title) h) : h.Capped ∧ h.Stands := by
  induction run with
  | refl => exact ⟨capped_fresh title, stands_fresh title⟩
  | tail _ step ih => exact ⟨ih.1.step step, ih.2.step ih.1 step⟩

end Handle

/-! ## A result is claimed at most once -/

namespace Handle

variable {h h' : Handle}

/-- The cell's past only grows. -/
theorem past_step (step : Step h h') : h.visited <+: h'.visited ∧ h.completions <+: h'.completions ∧
    h.claims <+: h'.claims := by
  have same : h.visited <+: h.visited ∧ h.completions <+: h.completions ∧ h.claims <+: h.claims :=
    ⟨List.prefix_rfl, List.prefix_rfl, List.prefix_rfl⟩
  cases step with
  | claimReady free =>
    unfold Handle.claimReady
    split
    · exact ⟨List.prefix_append _ _, List.prefix_rfl, List.prefix_append _ _⟩
    · exact same
  | claimAndStop free =>
    unfold Handle.claimAndStop
    split
    · exact same
    · exact same
    · exact ⟨List.prefix_append _ _, List.prefix_rfl, List.prefix_append _ _⟩
    · exact same
  | stop holding => exact ⟨List.prefix_append _ _, List.prefix_rfl, List.prefix_append _ _⟩
  | finish e held free =>
    unfold Handle.publish
    split <;> exact same
  | drop left free =>
    unfold Handle.publish
    split <;> exact same
  | install e out err stamp holding =>
    exact ⟨List.prefix_append _ _, List.prefix_append _ _, List.prefix_rfl⟩
  | _ => exact same

theorem past_run (run : Runs h h') : h.visited <+: h'.visited ∧ h.completions <+: h'.completions ∧
    h.claims <+: h'.claims := by
  induction run with
  | refl => exact ⟨List.prefix_rfl, List.prefix_rfl, List.prefix_rfl⟩
  | tail _ step ih =>
    have last := past_step step
    exact ⟨ih.1.trans last.1, ih.2.1.trans last.2.1, ih.2.2.trans last.2.2⟩

/-- What the life of a handle looks like, from any of its states. -/
structure Settles (h : Handle) : Prop where
  claimed_once : h.claims.length ≤ 1
  written_once : h.completions.length ≤ 1
  written : h.completions.length = 1 ↔ ∃ stamp result, h.state = .ended stamp result
  published : h.permit ≠ .held → h.holder = .free → h.completions.length = 1
  forward : h.visited <+: [.running, .ready, .consumed] ∨ h.visited <+: [.running, .stopping, .consumed]
  present : h.visited.getLast? = some h.state.phase
  cancelled : ∀ p, Sample h p → p = .stopping → h.cancelled = true
  won : ∀ c, Claim.obtained c ∈ h.claims ∨ Claim.discarded c ∈ h.claims → h.completions = [c]
  dropped : Claim.stopped ∈ h.claims → ∀ stamp result, h.state = .ended stamp result → result = none
  /-- A completion has what had been written to its streams when the worker completed,
  and perhaps what other threads wrote meanwhile: a prefix up to the cap, and past it
  the marker. -/
  bytes : ∀ c ∈ h.completions, ∃ m, h.before = some m ∧ Drained m.1 h.written.1 c.stdout ∧
    Drained m.2 h.written.2 c.stderr

theorem settles_live (free : h.Live) (none : h.completions = [])
    (unpublished : h.permit ≠ .held → h.holder = .free → False) : h.Settles := by
  cases free with
  | running state visited claims =>
    exact {
      claimed_once := by simp [claims]
      written_once := by simp [none]
      written := by simp [none, state]
      published := fun spent free => (unpublished spent free).elim
      forward := Or.inl ⟨[.ready, .consumed], by rw [visited]; rfl⟩
      present := by simp [visited, state, HandleState.phase]
      cancelled := by
        rintro p ⟨_⟩ stopping
        simp [state, HandleState.phase] at stopping
      won := by simp [claims]
      dropped := by simp [claims]
      bytes := by simp [none] }
  | stopping state visited claims cancelled =>
    exact {
      claimed_once := by simp [claims]
      written_once := by simp [none]
      written := by simp [none, state]
      published := fun spent free => (unpublished spent free).elim
      forward := Or.inr ⟨[.consumed], by rw [visited]; rfl⟩
      present := by simp [visited, state, HandleState.phase]
      cancelled := fun _ _ _ => cancelled
      won := by simp [claims]
      dropped := by simp [state]
      bytes := by simp [none] }

theorem settles_over {c : CompletedHandle} {stamp : Stamp} {m : List UInt8 × List UInt8} (over' : h.Over c stamp)
    (before : h.before = some m) (one : h.completions = [c]) (out : Drained m.1 h.written.1 c.stdout)
    (err : Drained m.2 h.written.2 c.stderr) : h.Settles := by
  have bytes : ∀ c' ∈ h.completions, ∃ m, h.before = some m ∧ Drained m.1 h.written.1 c'.stdout ∧
      Drained m.2 h.written.2 c'.stderr := by
    intro c' hc
    rw [one, List.mem_singleton] at hc
    subst hc
    exact ⟨m, before, out, err⟩
  cases over' with
  | ready state visited claims =>
    exact {
      claimed_once := by simp [claims]
      written_once := by simp [one]
      written := by simp [one, state]
      published := by simp [one]
      forward := Or.inl ⟨[.consumed], by rw [visited]; rfl⟩
      present := by simp [visited, state, HandleState.phase]
      cancelled := by
        rintro p ⟨_⟩ stopping
        simp [state, HandleState.phase] at stopping
      won := by simp [claims]
      dropped := by simp [claims]
      bytes }
  | claimed state visited claims =>
    exact {
      claimed_once := by rcases claims with claims | claims <;> simp [claims]
      written_once := by simp [one]
      written := by simp [one, state]
      published := by simp [one]
      forward := Or.inl ⟨[], by rw [visited]; rfl⟩
      present := by simp [visited, state, HandleState.phase]
      cancelled := by
        rintro p ⟨_⟩ stopping
        simp [state, HandleState.phase] at stopping
      won := by
        intro c'
        rcases claims with claims | claims
        · simp [claims, one, eq_comm]
        · simp [claims, one, eq_comm]
      dropped := by
        intro _ s r eq
        rw [state] at eq
        cases eq
        rfl
      bytes }
  | stopped state visited claims =>
    exact {
      claimed_once := by simp [claims]
      written_once := by simp [one]
      written := by simp [one, state]
      published := by simp [one]
      forward := Or.inr ⟨[], by rw [visited]; rfl⟩
      present := by simp [visited, state, HandleState.phase]
      cancelled := by
        rintro p ⟨_⟩ stopping
        simp [state, HandleState.phase] at stopping
      won := by simp [claims]
      dropped := by
        intro _ s r eq
        rw [state] at eq
        cases eq
        rfl
      bytes }

theorem Stands.settles (s : h.Stands) : h.Settles := by
  cases s with
  | live hold live permit before none out err =>
    exact settles_live live none fun spent => absurd permit spent
  | publishing e m hold live permit before none =>
    exact settles_live live none fun _ free => by simp [hold] at free
  | drainedOut e m out hold live permit before none =>
    exact settles_live live none fun _ free => by simp [hold] at free
  | drained e m out err hold live permit before none =>
    exact settles_live live none fun _ free => by simp [hold] at free
  | settled c stamp m hold over' permit before one out err => exact settles_over over' before one out err

/-- Under every interleaving of claims, stops, observers, writers and the worker's own
completion, at most one claimant wins, the terminal state is written once, and the
cell only moves forward. -/
theorem settles_once (title : String) (h h' : Handle) (run : Runs (fresh title) h) (later : Runs h h') :
    h.Settles ∧ h.visited <+: h'.visited ∧ h.completions <+: h'.completions ∧ h.claims <+: h'.claims :=
  ⟨(stands_run run).2.settles, past_run later⟩

/-- A worker that writes one byte more than its buffer keeps, completes, and is
claimed: the result has the prefix and the marker. -/
theorem written_byte_lost : ∃ h c m, Runs (fresh "w") h ∧ Claim.obtained c ∈ h.claims ∧ h.before = some m ∧
    ¬ m.1 <+: c.stdout := by
  let flood : List UInt8 := List.replicate (sinkBufferCap + 1) 0
  have run : ∃ h c, Runs (fresh "w") h ∧ h.claims = [.obtained c] ∧ h.before = some (flood, []) ∧
      h.completions = [c] :=
    ⟨_, _, (((((Relation.ReflTransGen.refl.tail (.write _ flood)).tail (.finish _ (.ok .unit) rfl rfl)).tail
      (.drainOut _ _ rfl)).tail (.drainErr _ _ _ rfl)).tail (.install _ _ _ _ ⟨0, 0⟩ rfl)).tail
        (.claimReady _ rfl), rfl, rfl, rfl⟩
  obtain ⟨h, c, run, claims, before, one⟩ := run
  refine ⟨h, c, (flood, []), run, by simp [claims], before, fun front => ?_⟩
  obtain ⟨m, hm, ⟨written, all, _, eq⟩, _⟩ := (stands_run run).2.settles.bytes c (by simp [one])
  rw [before, Option.some.injEq] at hm
  subst hm
  have past : sinkBufferCap < written.length := by
    have := all.length_le
    rw [List.length_replicate] at this
    omega
  rw [CapturedBytes.retained, if_neg (by omega)] at eq
  have kept : (written.take sinkBufferCap).length = sinkBufferCap := by
    rw [List.length_take]
    omega
  have zero : c.stdout[sinkBufferCap]? = some 0 := by
    obtain ⟨rest, hrest⟩ := front
    rw [← hrest, List.getElem?_append_left (by rw [List.length_replicate]; omega),
      List.getElem?_replicate_of_lt (by omega)]
  have newline : c.stdout[sinkBufferCap]? = some 10 := by
    rw [eq, List.getElem?_append_right (by omega), kept, Nat.sub_self]
    rfl
  rw [zero] at newline
  exact absurd newline (by decide)

theorem settles_once_claimed : ∃ h h' c, Runs (fresh "w") h ∧ Runs h h' ∧ h.claims = [] ∧
    h'.claims = [.obtained c] ∧ c.stdout = [104, 105] ∧ h.Settles ∧ h.visited <+: h'.visited ∧
    h.completions <+: h'.completions := by
  have run : ∃ h, Runs (fresh "w") h ∧ h.holder = .free ∧ h.claims = [] ∧
      h.state = .ended ⟨0, 0⟩ (some ⟨[104, 105], [], .ok .unit⟩) :=
    ⟨_, (((((Relation.ReflTransGen.refl.tail (.write _ [104, 105])).tail (.finish _ (.ok .unit) rfl rfl)).tail
      (.drainOut _ _ rfl)).tail (.drainErr _ _ _ rfl)).tail (.install _ _ _ _ ⟨0, 0⟩ rfl)), rfl, rfl, rfl⟩
  obtain ⟨h, run, free, unclaimed, ready⟩ := run
  have later : Runs h h.claimReady := .single (.claimReady h free)
  obtain ⟨settles, visited, completions, -⟩ := settles_once "w" h h.claimReady run later
  refine ⟨h, h.claimReady, ⟨[104, 105], [], .ok .unit⟩, run, later, unclaimed, ?_, rfl, settles, visited, completions⟩
  simp [claimReady, ready, unclaimed, enter]

end Handle

end Ral.Worker
