import Ral.Worker.Handle

/-! # The worker registry

A directory of a shell's workers under one lock. A birth reserves a seat, then starts
its thread, then registers; a seat is released by the registration or with the
reservation. While the registry's lock is held the handles move on under their own:
each is sampled once, one at a time.
-/

namespace Ral.Worker

abbrev WorkerId := ℕ

inductive Owner
  | session
  | worker (id : WorkerId)
  | gather
  deriving DecidableEq

structure WorkerEntry where
  id : WorkerId
  owner : Owner
  title : String
  settledEpoch : Option ℕ
  deriving DecidableEq

inductive ReapCause
  | retention
  deriving DecidableEq

structure ReapNotice where
  id : WorkerId
  title : String
  cause : ReapCause
  deriving DecidableEq

namespace Phase

def isLive : Phase → Bool
  | running => true
  | stopping => true
  | ready => false
  | consumed => false

/-- The one next thing a handle's cell can become. -/
inductive Advance : Phase → Phase → Prop
  | complete : Advance running ready
  | stop : Advance running stopping
  | claim : Advance ready consumed
  | drain : Advance stopping consumed

end Phase

def minSweepAt : ℕ := 32

structure Registry where
  entries : List WorkerEntry
  sweepAt : ℕ
  reapNotices : List ReapNotice
  reserved : ℕ
  epoch : ℕ
  retention : Option ℕ

/-- What a pass over the entries is for. -/
inductive Why
  | reserve (cap : ℕ)
  | push (entry : WorkerEntry)
  | list
  | sweep

abbrev Samples := List (WorkerId × Phase)

inductive Pass
  | pruning (kept todo : List WorkerEntry) (live : ℕ) (why : Why)
  | sampling (taken : Samples) (todo : List WorkerEntry)

/-- A seat granted against a cap, with what was so at that moment. -/
structure Grant where
  cap : ℕ
  live : ℕ
  outstanding : ℕ

/-- An entry a sweep judged, with what it went by. -/
structure Verdict where
  entry : WorkerEntry
  epoch : ℕ
  retention : ℕ
  taken : Samples

/-- Left alone: not ready, or its owner joins or drains it. -/
def isHeld (taken : Samples) (entry : WorkerEntry) : Bool :=
  !(entry.id, Phase.ready) ∈ taken || entry.owner = .gather ||
    match entry.owner with
    | .worker parent => taken.any fun s => s.1 = parent && s.2.isLive
    | _ => false

/-- What a sweep makes of an entry. -/
inductive Fate
  | kept
  | stamped
  | reaped
  deriving DecidableEq

def fate (taken : Samples) (epoch retention : ℕ) (entry : WorkerEntry) : Fate :=
  if isHeld taken entry then .kept
  else match entry.settledEpoch with
    | none => .stamped
    | some stamp => if retention ≤ epoch - stamp then .reaped else .kept

def extractIf (taken : Samples) (epoch retention : ℕ) (entries : List WorkerEntry) : List WorkerEntry :=
  entries.filterMap fun entry =>
    match fate taken epoch retention entry with
    | .kept => some entry
    | .stamped => some { entry with settledEpoch := some epoch }
    | .reaped => none

def judged (which : Fate) (taken : Samples) (epoch retention : ℕ) (entries : List WorkerEntry) :
    List Verdict :=
  (entries.filter fun entry => fate taken epoch retention entry = which).map
    (⟨·, epoch, retention, taken⟩)

def Verdict.notice (v : Verdict) : ReapNotice := ⟨v.entry.id, v.entry.title, .retention⟩

structure System where
  phase : WorkerId → Phase
  registry : Registry
  pass : Option Pass
  outstanding : ℕ
  grants : List Grant
  registered : List WorkerId
  observed : List Verdict
  reaps : List Verdict
  noticed : List ReapNotice

namespace System

def initial (phase : WorkerId → Phase) : System :=
  ⟨phase, ⟨[], minSweepAt, [], 0, 0, none⟩, none, 0, [], [], [], [], []⟩

def pruned (kept : List WorkerEntry) (s : System) : System :=
  { s with registry := { s.registry with entries := kept, sweepAt := max (kept.length * 2) minSweepAt } }

def release (s : System) : System := { s with pass := none }

def liveCount (entries : List WorkerEntry) (s : System) : ℕ :=
  (entries.filter fun entry => (s.phase entry.id).isLive).length

def take (s : System) : System :=
  { s with registry := { s.registry with reserved := s.registry.reserved + 1 },
           outstanding := s.outstanding + 1 }

def giveBack (s : System) : System :=
  { s with registry := { s.registry with reserved := s.registry.reserved - 1 },
           outstanding := s.outstanding - 1 }

def push (entry : WorkerEntry) (s : System) : System :=
  { s with registry := { s.registry with entries := s.registry.entries ++ [entry] } }

def file (entry : WorkerEntry) (s : System) : System :=
  if s.phase entry.id = .consumed then s
  else if s.registry.sweepAt ≤ s.registry.entries.length then
    { s with pass := some (.pruning [] s.registry.entries 0 (.push entry)) }
  else s.push entry

/-- The end of a sweep: entries and notices move in one locked step. -/
def expire (taken : Samples) (retention : ℕ) (s : System) : System :=
  let r := s.registry
  let reaped := judged .reaped taken r.epoch retention r.entries
  { s with
    registry := { r with
      entries := extractIf taken r.epoch retention r.entries
      reapNotices := r.reapNotices ++ reaped.map Verdict.notice }
    observed := s.observed ++ judged .stamped taken r.epoch retention r.entries
    reaps := s.reaps ++ reaped
    noticed := s.noticed ++ reaped.map Verdict.notice }

/-- One step of one thread. -/
inductive Step : System → System → Prop
  | advance (s : System) (id : WorkerId) (p : Phase) : Phase.Advance (s.phase id) p →
      Step s { s with phase := fun n => if n = id then p else s.phase n }
  | reserveUncapped (s : System) : s.pass = none → Step s s.take
  | reserve (s : System) (cap : ℕ) : s.pass = none →
      Step s { s with pass := some (.pruning [] s.registry.entries 0 (.reserve cap)) }
  | register (s : System) (entry : WorkerEntry) : s.pass = none → 0 < s.outstanding →
      entry.id ∉ s.registered → entry.settledEpoch = none →
      Step s (file entry { s.giveBack with registered := s.registered ++ [entry.id] })
  | dropReservation (s : System) : s.pass = none → 0 < s.outstanding → Step s s.giveBack
  | tickEpoch (s : System) : s.pass = none →
      Step s { s with registry := { s.registry with epoch := s.registry.epoch + 1 } }
  | armRetention (s : System) (n : ℕ) : s.pass = none →
      Step s { s with registry := { s.registry with retention := some n } }
  | takeReapNotices (s : System) : s.pass = none →
      Step s { s with registry := { s.registry with reapNotices := [] } }
  | list (s : System) : s.pass = none →
      Step s { s with pass := some (.pruning [] s.registry.entries 0 .list) }
  | sweepRetention (s : System) : s.pass = none →
      Step s { s with pass := some (.pruning [] s.registry.entries 0 .sweep) }
  | prune (s : System) (kept todo : List WorkerEntry) (entry : WorkerEntry) (live : ℕ) (why : Why) :
      s.pass = some (.pruning kept (entry :: todo) live why) →
      Step s { s with pass := some (.pruning
        (if s.phase entry.id = .consumed then kept else kept ++ [entry]) todo
        (live + if (s.phase entry.id).isLive then 1 else 0) why) }
  | refused (s : System) (kept : List WorkerEntry) (live cap : ℕ) :
      s.pass = some (.pruning kept [] live (.reserve cap)) → cap ≤ live + s.registry.reserved →
      Step s (s.pruned kept).release
  | granted (s : System) (kept : List WorkerEntry) (live cap : ℕ) :
      s.pass = some (.pruning kept [] live (.reserve cap)) → ¬ cap ≤ live + s.registry.reserved →
      Step s { (s.pruned kept).release.take with
        grants := s.grants ++ [⟨cap, s.liveCount kept, s.outstanding⟩] }
  | pushed (s : System) (kept : List WorkerEntry) (live : ℕ) (entry : WorkerEntry) :
      s.pass = some (.pruning kept [] live (.push entry)) →
      Step s ((s.pruned kept).release.push entry)
  | listed (s : System) (kept : List WorkerEntry) (live : ℕ) :
      s.pass = some (.pruning kept [] live .list) → Step s (s.pruned kept).release
  | unarmed (s : System) (kept : List WorkerEntry) (live : ℕ) :
      s.pass = some (.pruning kept [] live .sweep) → s.registry.retention = none →
      Step s (s.pruned kept).release
  | armed (s : System) (kept : List WorkerEntry) (live n : ℕ) :
      s.pass = some (.pruning kept [] live .sweep) → s.registry.retention = some n →
      Step s { s.pruned kept with pass := some (.sampling [] kept) }
  | sample (s : System) (taken : Samples) (entry : WorkerEntry) (todo : List WorkerEntry) :
      s.pass = some (.sampling taken (entry :: todo)) →
      Step s { s with pass := some (.sampling (taken ++ [(entry.id, s.phase entry.id)]) todo) }
  | expired (s : System) (taken : Samples) (n : ℕ) : s.pass = some (.sampling taken []) →
      s.registry.retention = some n → Step s (s.expire taken n).release

abbrev Runs : System → System → Prop := Relation.ReflTransGen Step

end System

/-! ## What a step does to the listing

Whatever pass is under way, a worker filed is listed until it is consumed or reaped,
and its stamp is that of a sweep that found it ready with no one to answer for it.
-/

namespace System

def listing (s : System) : List WorkerEntry :=
  match s.pass with
  | some (.pruning kept todo _ (.push entry)) => kept ++ todo ++ [entry]
  | some (.pruning kept todo _ _) => kept ++ todo
  | _ => s.registry.entries

/-- What else a step leaves as it was. -/
structure Same (s s' : System) : Prop where
  registered : s'.registered = s.registered
  observed : s'.observed = s.observed
  reaps : s'.reaps = s.reaps
  noticed : s'.noticed = s.noticed
  phase : s'.phase = s.phase
  epoch : s.registry.epoch ≤ s'.registry.epoch

/-- All that a step can do to the listing and its history. -/
inductive Change (s s' : System) : Prop
  | none : s'.listing = s.listing → Same s s' → Change s s'
  | advance (id : WorkerId) (p : Phase) : Phase.Advance (s.phase id) p →
      s' = { s with phase := fun n => if n = id then p else s.phase n } → Change s s'
  | filed (entry : WorkerEntry) : entry.id ∉ s.registered → entry.settledEpoch = Option.none →
      s'.listing = s.listing ++ [entry] ∨ (s'.listing = s.listing ∧ s.phase entry.id = .consumed) →
      Same { s with registered := s.registered ++ [entry.id] } s' → Change s s'
  | dropped (before after : List WorkerEntry) (entry : WorkerEntry) : s.phase entry.id = .consumed →
      s.listing = before ++ entry :: after → s'.listing = before ++ after → Same s s' → Change s s'
  | expired (taken : Samples) (n : ℕ) : s.pass = some (.sampling taken []) →
      s'.listing = extractIf taken s.registry.epoch n s.listing →
      Same { s with
        observed := s.observed ++ judged .stamped taken s.registry.epoch n s.listing
        reaps := s.reaps ++ judged .reaped taken s.registry.epoch n s.listing
        noticed := s.noticed ++ (judged .reaped taken s.registry.epoch n s.listing).map Verdict.notice } s' →
      Change s s'

variable {s s' : System}

theorem same_repass (s : System) (p : Option Pass) : Same s { s with pass := p } :=
  ⟨rfl, rfl, rfl, rfl, rfl, Nat.le_refl _⟩

theorem change_file {entry : WorkerEntry} (free : s.pass = none) (new : entry.id ∉ s.registered)
    (unstamped : entry.settledEpoch = none) :
    Change s (file entry { s.giveBack with registered := s.registered ++ [entry.id] }) := by
  unfold file
  split
  · next consumed =>
      refine .filed entry new unstamped (Or.inr ⟨?_, consumed⟩) ⟨rfl, rfl, rfl, rfl, rfl, Nat.le_refl _⟩
      simp [listing, free, giveBack]
  · split
    · refine .filed entry new unstamped (Or.inl ?_) ⟨rfl, rfl, rfl, rfl, rfl, Nat.le_refl _⟩
      simp [listing, free, giveBack]
    · refine .filed entry new unstamped (Or.inl ?_) ⟨rfl, rfl, rfl, rfl, rfl, Nat.le_refl _⟩
      simp [listing, free, giveBack, push]

theorem change_prune {kept todo : List WorkerEntry} {entry : WorkerEntry} {live : ℕ} {why : Why}
    (pass : s.pass = some (.pruning kept (entry :: todo) live why)) (live' : ℕ) :
    Change s { s with pass := some (.pruning
      (if s.phase entry.id = .consumed then kept else kept ++ [entry]) todo live' why) } := by
  by_cases consumed : s.phase entry.id = .consumed
  · rw [if_pos consumed]
    cases why with
    | push pending =>
      refine .dropped kept (todo ++ [pending]) entry consumed ?_ ?_ (same_repass s _)
      · simp [listing, pass]
      · simp [listing]
    | _ =>
      refine .dropped kept todo entry consumed ?_ ?_ (same_repass s _)
      · simp [listing, pass]
      · simp [listing]
  · rw [if_neg consumed]
    refine .none ?_ (same_repass s _)
    cases why <;> simp [listing, pass]

theorem Step.change (step : Step s s') : Change s s' := by
  cases step with
  | advance id p next => exact .advance id p next rfl
  | reserveUncapped free =>
    refine .none ?_ ⟨rfl, rfl, rfl, rfl, rfl, Nat.le_refl _⟩
    simp [listing, free, take]
  | reserve cap free =>
    refine .none ?_ ⟨rfl, rfl, rfl, rfl, rfl, Nat.le_refl _⟩
    simp [listing, free]
  | register entry free some new unstamped => exact change_file free new unstamped
  | dropReservation free some =>
    refine .none ?_ ⟨rfl, rfl, rfl, rfl, rfl, Nat.le_refl _⟩
    simp [listing, free, giveBack]
  | tickEpoch free =>
    refine .none ?_ ⟨rfl, rfl, rfl, rfl, rfl, Nat.le_succ _⟩
    simp [listing, free]
  | armRetention n free =>
    refine .none ?_ ⟨rfl, rfl, rfl, rfl, rfl, Nat.le_refl _⟩
    simp [listing, free]
  | takeReapNotices free =>
    refine .none ?_ ⟨rfl, rfl, rfl, rfl, rfl, Nat.le_refl _⟩
    simp [listing, free]
  | list free =>
    refine .none ?_ ⟨rfl, rfl, rfl, rfl, rfl, Nat.le_refl _⟩
    simp [listing, free]
  | sweepRetention free =>
    refine .none ?_ ⟨rfl, rfl, rfl, rfl, rfl, Nat.le_refl _⟩
    simp [listing, free]
  | prune kept todo entry live why pass => exact change_prune pass _
  | refused kept live cap pass full =>
    refine .none ?_ ⟨rfl, rfl, rfl, rfl, rfl, Nat.le_refl _⟩
    simp [listing, pass, release, pruned]
  | granted kept live cap pass room =>
    refine .none ?_ ⟨rfl, rfl, rfl, rfl, rfl, Nat.le_refl _⟩
    simp [listing, pass, release, pruned, take]
  | pushed kept live entry pass =>
    refine .none ?_ ⟨rfl, rfl, rfl, rfl, rfl, Nat.le_refl _⟩
    simp [listing, pass, release, pruned, push]
  | listed kept live pass =>
    refine .none ?_ ⟨rfl, rfl, rfl, rfl, rfl, Nat.le_refl _⟩
    simp [listing, pass, release, pruned]
  | unarmed kept live pass bare =>
    refine .none ?_ ⟨rfl, rfl, rfl, rfl, rfl, Nat.le_refl _⟩
    simp [listing, pass, release, pruned]
  | armed kept live n pass set =>
    refine .none ?_ ⟨rfl, rfl, rfl, rfl, rfl, Nat.le_refl _⟩
    simp [listing, pass, pruned]
  | sample taken entry todo pass =>
    refine .none ?_ (same_repass s _)
    simp [listing, pass]
  | expired taken n pass set =>
    have all : s.listing = s.registry.entries := by simp [listing, pass]
    refine .expired taken n pass ?_ ?_
    · rw [all]
      rfl
    · rw [all]
      exact ⟨rfl, rfl, rfl, rfl, rfl, Nat.le_refl _⟩

end System

end Ral.Worker
