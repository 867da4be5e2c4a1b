import Mathlib.Data.List.Infix
import Mathlib.Data.List.Perm.Basic
import Ral.Serve.Session

/-! # The ledger of calls

Which dispatches and probes are still owed an answer, whatever thread holds them, and what
the wire says of each. The session's threads only do what a ledger allows.
-/

namespace Ral.Serve

variable {Id V R : Type}

structure Ledger (Id V R : Type) where
  sent : List (Frame Id V)
  taken : ℕ
  /-- Read, and not yet answered. -/
  outstanding : List (Call Id)
  runner : Option (Call Id)
  children : List (Child Id)
  left : List ℕ
  line : Line Id V R

def Ledger.callAt (l : Ledger Id V R) (n : ℕ) : Option (Call Id) := l.sent[n]?.bind (Frame.call? n)

/-- What a write of `ev` for `c` leaves of the line. -/
inductive Written (line : Line Id V R) (c : Call Id) (author : Author) (ev : Event V R) :
    Line Id V R → Option WriteError → Prop
  | kept (why : String) : ev.terminal = false → Written line c author ev line (some (.unencodable why))
  | broke : Written line c author ev { line with severed := true } (some .severed)
  | put (ev' : Event V R) : line.severed = false → ev'.terminal = ev.terminal →
      (∀ probing, ev'.ends probing = ev.ends probing) → ev'.isSurface = ev.isSurface →
      Written line c author ev { line with wire := line.wire ++ [⟨c.serial, c.id, author, ev'⟩] } none

/-- A surface of a child that outlived its run. -/
def Event.Late (ev : Event V R) (author : Author) (left : List ℕ) : Prop :=
  ev.isSurface = true ∧ ∃ number ∈ left, author = .child number

/-- One entry in the ledger. -/
inductive Ledger.Op : Ledger Id V R → Ledger Id V R → Prop
  | moved (l : Ledger Id V R) (outstanding : List (Call Id)) : outstanding.Perm l.outstanding →
      Op l { l with outstanding }
  | sent (l : Ledger Id V R) (f : Frame Id V) : Op l { l with sent := l.sent ++ [f] }
  | passed (l : Ledger Id V R) (f : Frame Id V) : l.sent[l.taken]? = some f → f.call? l.taken = none →
      Op l { l with taken := l.taken + 1 }
  | opened (l : Ledger Id V R) (c : Call Id) (outstanding : List (Call Id)) :
      l.callAt l.taken = some c → outstanding.Perm (c :: l.outstanding) →
      Op l { l with taken := l.taken + 1, outstanding }
  | started (l : Ledger Id V R) (c : Call Id) (outstanding : List (Call Id)) : l.runner = none →
      outstanding.Perm l.outstanding → c ∈ outstanding →
      Op l { l with outstanding, runner := some c }
  | emitted (l : Ledger Id V R) (c : Call Id) (ev : Event V R) (line : Line Id V R) (e : Option WriteError) :
      l.runner = some c → ev.terminal = false → Written l.line c .engine ev line e → Op l { l with line }
  | childEmitted (l : Ledger Id V R) (k : Child Id) (ev : Event V R) (line : Line Id V R) (e : Option WriteError) :
      k ∈ l.children → ev.isSurface = true → Written l.line k.call (.child k.number) ev line e → Op l { l with line }
  | born (l : Ledger Id V R) (c : Call Id) (number : ℕ) : l.runner = some c →
      Op l { l with children := ⟨c, number⟩ :: l.children }
  | sprung (l : Ledger Id V R) (k : Child Id) (number : ℕ) : k ∈ l.children →
      Op l { l with
        children := ⟨k.call, number⟩ :: l.children
        left := if k.number ∈ l.left then l.left ++ [number] else l.left }
  | died (l : Ledger Id V R) (children : List (Child Id)) : children ⊆ l.children →
      Op l { l with children }
  | ended (l : Ledger Id V R) : Op l { l with runner := none, left := l.left ++ l.children.map Child.number }
  | answered (l : Ledger Id V R) (c : Call Id) (rest : List (Call Id)) (ev : Event V R)
      (line : Line Id V R) (e : Option WriteError) :
      l.outstanding.Perm (c :: rest) → (∀ k, l.runner = some k → k ∈ rest) → ev.ends c.probing = true →
      Written l.line c .engine ev line e → Op l { l with outstanding := rest, line }

/-- The books balance. -/
structure Ledger.Balanced (l : Ledger Id V R) : Prop where
  read : l.taken ≤ l.sent.length
  known : ∀ c ∈ l.outstanding ++ l.children.map Child.call, c.serial < l.taken ∧ l.callAt c.serial = some c
  once : (l.outstanding.map Call.serial).Nodup
  running : ∀ c, l.runner = some c → c ∈ l.outstanding
  /-- A child's run is going on, or went without it. -/
  parted : ∀ k ∈ l.children, k.number ∈ l.left ∨ l.runner = some k.call
  stamped : ∀ e ∈ l.line.wire, e.serial < l.taken ∧ ∃ c, l.callAt e.serial = some c ∧ e.id = c.id ∧
    (e.event.terminal = true → e.event.ends c.probing = true)
  unanswered : ∀ c ∈ l.outstanding, ∀ e ∈ l.line.wire, e.event.terminal = true → e.serial ≠ c.serial
  /-- Nothing follows an answer but a surface of a child its run left. -/
  ordered : l.line.wire.Pairwise fun a b => a.event.terminal = true → b.serial = a.serial →
    b.event.Late b.author l.left
  complete : l.line.severed = false → ∀ n < l.taken, ∀ c, l.callAt n = some c →
    c ∈ l.outstanding ∨ ∃ e ∈ l.line.wire, e.serial = n ∧ e.event.terminal = true

namespace Ledger

variable {l l' : Ledger Id V R}

theorem callAt_serial {n : ℕ} {c : Call Id} (h : l.callAt n = some c) : c.serial = n := by
  obtain ⟨f, -, hf⟩ := Option.bind_eq_some_iff.mp h
  cases f <;> simp only [Frame.call?] at hf <;> cases hf <;> rfl

theorem callAt_append {n : ℕ} {c : Call Id} (f : Frame Id V) (h : l.callAt n = some c) :
    ({ l with sent := l.sent ++ [f] } : Ledger Id V R).callAt n = some c := by
  obtain ⟨g, hg, hcall⟩ := Option.bind_eq_some_iff.mp h
  have hn : n < l.sent.length := (List.getElem?_eq_some_iff.mp hg).choose
  simp only [callAt, List.getElem?_append_left hn]
  exact h

theorem ends_terminal {ev : Event V R} {probing : Bool} (h : ev.ends probing = true) : ev.terminal = true := by
  cases ev <;> simp_all [Event.ends, Event.terminal]

theorem surface_not_terminal {ev : Event V R} (h : ev.isSurface = true) : ev.terminal = false := by
  cases ev <;> simp_all [Event.isSurface, Event.terminal]

/-- A write of a call the wire has no answer to, or a surface of a child left behind. -/
theorem Balanced.written (h : l.Balanced) {c : Call Id} {author : Author} {ev : Event V R} {line : Line Id V R}
    {e : Option WriteError} (hw : Written l.line c author ev line e)
    (hc : c.serial < l.taken ∧ l.callAt c.serial = some c) (hev : ev.terminal = true → ev.ends c.probing = true)
    (hfree : ∀ a ∈ l.line.wire, a.event.terminal = true → c.serial = a.serial → ev.Late author l.left) :
    (∀ e ∈ line.wire, e.serial < l.taken ∧ ∃ c, l.callAt e.serial = some c ∧ e.id = c.id ∧
        (e.event.terminal = true → e.event.ends c.probing = true)) ∧
      line.wire.Pairwise (fun a b => a.event.terminal = true → b.serial = a.serial →
        b.event.Late b.author l.left) := by
  cases hw with
  | kept | broke => exact ⟨h.stamped, h.ordered⟩
  | put ev' hwhole hterm hends hsurf =>
    constructor
    · intro x hx
      rcases List.mem_append.mp hx with hx | hx
      · exact h.stamped x hx
      · rw [List.mem_singleton.mp hx]
        refine ⟨hc.1, c, hc.2, rfl, fun ht => ?_⟩
        rw [hends]
        exact hev (hterm ▸ ht)
    · refine List.pairwise_append.mpr ⟨h.ordered, List.pairwise_singleton _ _, fun a ha b hb => ?_⟩
      rw [List.mem_singleton.mp hb]
      intro ht hs
      obtain ⟨hsurface, hleft⟩ := hfree a ha ht hs
      exact ⟨hsurf.trans hsurface, hleft⟩

theorem Written.aside {line line' : Line Id V R} {c : Call Id} {author : Author} {ev : Event V R}
    {e : Option WriteError} (hw : Written line c author ev line' e) (hev : ev.terminal = false) :
    (line'.severed = false → line.severed = false) ∧
      ∀ x, (x ∈ line'.wire ∧ x.event.terminal = true) ↔ (x ∈ line.wire ∧ x.event.terminal = true) := by
  cases hw with
  | kept => exact ⟨id, fun _ => Iff.rfl⟩
  | broke =>
    refine ⟨fun hwhole => ?_, fun _ => Iff.rfl⟩
    cases hwhole
  | put ev' _ hterm _ _ =>
    refine ⟨id, fun x => ⟨fun ⟨hx, ht⟩ => ⟨?_, ht⟩, fun ⟨hx, ht⟩ => ⟨List.mem_append_left _ hx, ht⟩⟩⟩
    rcases List.mem_append.mp hx with hx | hx
    · exact hx
    · rw [List.mem_singleton.mp hx] at ht
      simp [hterm, hev] at ht

theorem Balanced.aside (h : l.Balanced) {c : Call Id} {author : Author} {ev : Event V R} {line : Line Id V R}
    {e : Option WriteError} (hw : Written l.line c author ev line e) (hc : c.serial < l.taken ∧ l.callAt c.serial = some c)
    (hev : ev.terminal = false)
    (hfree : ∀ a ∈ l.line.wire, a.event.terminal = true → c.serial = a.serial → ev.Late author l.left) :
    ({ l with line } : Ledger Id V R).Balanced := by
  have hnot : ev.terminal = true → ev.ends c.probing = true := by simp [hev]
  obtain ⟨hstamped, hordered⟩ := h.written hw hc hnot hfree
  obtain ⟨hsevered, hsame⟩ := Written.aside hw hev
  refine ⟨h.read, h.known, h.once, h.running, h.parted, hstamped, fun k hk x hx ht => ?_, hordered, ?_⟩
  · exact h.unanswered k hk x ((hsame x).mp ⟨hx, ht⟩).1 ht
  · intro hwhole n hn k hk
    rcases h.complete (hsevered hwhole) n hn k hk with hout | ⟨x, hx, hserial, ht⟩
    · exact Or.inl hout
    · exact Or.inr ⟨x, ((hsame x).mpr ⟨hx, ht⟩).1, hserial, ht⟩

theorem Balanced.answered (h : l.Balanced) {c : Call Id} {rest : List (Call Id)} {ev : Event V R}
    {line : Line Id V R} {e : Option WriteError} (hperm : l.outstanding.Perm (c :: rest))
    (hrunner : ∀ k, l.runner = some k → k ∈ rest) (hev : ev.ends c.probing = true)
    (hw : Written l.line c .engine ev line e) : ({ l with outstanding := rest, line } : Ledger Id V R).Balanced := by
  have hmem : c ∈ l.outstanding := hperm.mem_iff.mpr (List.mem_cons_self ..)
  have hterm := ends_terminal hev
  have hnodup : ((c :: rest).map Call.serial).Nodup := (hperm.map Call.serial).nodup_iff.mp h.once
  rw [List.map_cons, List.nodup_cons] at hnodup
  have hrest : ∀ k ∈ rest, k ∈ l.outstanding := fun k hk => hperm.mem_iff.mpr (List.mem_cons_of_mem _ hk)
  have hapart : ∀ k ∈ rest, c.serial ≠ k.serial := by
    intro k hk heq
    exact hnodup.1 (heq ▸ List.mem_map_of_mem hk)
  have hnone : ∀ a ∈ l.line.wire, a.event.terminal = true → c.serial = a.serial → ev.Late .engine l.left := by
    intro a ha ht hs
    exact absurd hs.symm (h.unanswered c hmem a ha ht)
  obtain ⟨hstamped, hordered⟩ := h.written hw (h.known c (List.mem_append_left _ hmem)) (fun _ => hev) hnone
  refine ⟨h.read, fun k hk => ?_, hnodup.2, hrunner, h.parted, hstamped, ?_, hordered, ?_⟩
  · rcases List.mem_append.mp hk with hk | hk
    · exact h.known k (List.mem_append_left _ (hrest k hk))
    · exact h.known k (List.mem_append_right _ hk)
  · intro k hk x hx ht
    cases hw with
    | kept _ hlie => simp [hterm] at hlie
    | broke => exact h.unanswered k (hrest k hk) x hx ht
    | put =>
      rcases List.mem_append.mp hx with hx | hx
      · exact h.unanswered k (hrest k hk) x hx ht
      · rw [List.mem_singleton.mp hx]
        exact hapart k hk
  · intro hwhole n hn k hk
    cases hw with
    | kept _ hlie => simp [hterm] at hlie
    | broke => cases hwhole
    | put ev' hopen hsame _ _ =>
      rcases h.complete hopen n hn k hk with hout | ⟨x, hx, hserial, ht⟩
      · rcases List.mem_cons.mp (hperm.mem_iff.mp hout) with rfl | hk'
        · have := callAt_serial hk
          exact Or.inr ⟨_, List.mem_append_right _ (List.mem_singleton_self _), this, hsame.trans hterm⟩
        · exact Or.inl hk'
      · exact Or.inr ⟨x, List.mem_append_left _ hx, hserial, ht⟩

theorem Balanced.moved (h : l.Balanced) {outstanding : List (Call Id)} (hperm : outstanding.Perm l.outstanding) :
    ({ l with outstanding } : Ledger Id V R).Balanced where
  read := h.read
  known := fun c hc => h.known c (by
    rcases List.mem_append.mp hc with hc | hc
    · exact List.mem_append_left _ (hperm.mem_iff.mp hc)
    · exact List.mem_append_right _ hc)
  once := (hperm.map Call.serial).nodup_iff.mpr h.once
  running := fun c hc => hperm.mem_iff.mpr (h.running c hc)
  parted := h.parted
  stamped := h.stamped
  unanswered := fun c hc => h.unanswered c (hperm.mem_iff.mp hc)
  ordered := h.ordered
  complete := fun hwhole n hn c hc => (h.complete hwhole n hn c hc).imp hperm.mem_iff.mpr id

theorem Balanced.sends (h : l.Balanced) (f : Frame Id V) :
    ({ l with sent := l.sent ++ [f] } : Ledger Id V R).Balanced where
  read := by
    have := h.read
    simp only [List.length_append, List.length_singleton]
    omega
  known := fun c hc => ⟨(h.known c hc).1, callAt_append f (h.known c hc).2⟩
  once := h.once
  running := h.running
  parted := h.parted
  stamped := fun e he => by
    obtain ⟨hlt, c, hc, hrest⟩ := h.stamped e he
    exact ⟨hlt, c, callAt_append f hc, hrest⟩
  unanswered := h.unanswered
  ordered := h.ordered
  complete := fun hwhole n hn c hc => by
    apply h.complete hwhole n hn c
    have hlt : n < l.sent.length := Nat.lt_of_lt_of_le hn h.read
    simpa only [callAt, List.getElem?_append_left hlt] using hc

theorem Balanced.passed (h : l.Balanced) {f : Frame Id V} (hf : l.sent[l.taken]? = some f)
    (hnone : f.call? l.taken = none) : ({ l with taken := l.taken + 1 } : Ledger Id V R).Balanced where
  read := (List.getElem?_eq_some_iff.mp hf).choose
  known := fun c hc => ⟨Nat.lt_succ_of_lt (h.known c hc).1, (h.known c hc).2⟩
  once := h.once
  running := h.running
  parted := h.parted
  stamped := fun e he => ⟨Nat.lt_succ_of_lt (h.stamped e he).1, (h.stamped e he).2⟩
  unanswered := h.unanswered
  ordered := h.ordered
  complete := fun hwhole n hn c hc => by
    by_cases hlast : n = l.taken
    · subst hlast
      simp [callAt, hf, hnone] at hc
    · exact h.complete hwhole n (Nat.lt_of_le_of_ne (Nat.lt_succ_iff.mp hn) hlast) c hc

theorem Balanced.opened (h : l.Balanced) {c : Call Id} {outstanding : List (Call Id)}
    (hc : l.callAt l.taken = some c) (hperm : outstanding.Perm (c :: l.outstanding)) :
    ({ l with taken := l.taken + 1, outstanding } : Ledger Id V R).Balanced := by
  have hserial := callAt_serial hc
  have hlt : l.taken < l.sent.length := by
    obtain ⟨f, hf, -⟩ := Option.bind_eq_some_iff.mp hc
    exact (List.getElem?_eq_some_iff.mp hf).choose
  have hnew : c.serial ∉ l.outstanding.map Call.serial := by
    rw [hserial, List.mem_map]
    rintro ⟨k, hk, heq⟩
    have := (h.known k (List.mem_append_left _ hk)).1
    omega
  have hcases : ∀ k ∈ outstanding, k = c ∨ k ∈ l.outstanding := fun k hk => List.mem_cons.mp (hperm.mem_iff.mp hk)
  refine ⟨hlt, fun k hk => ?_, ?_, fun k hk => ?_, h.parted, fun e he => ?_, fun k hk e he ht => ?_, h.ordered, ?_⟩
  · show k.serial < l.taken + 1 ∧ l.callAt k.serial = some k
    have hold : k ∈ l.outstanding ++ l.children.map Child.call → k.serial < l.taken + 1 ∧ l.callAt k.serial = some k :=
      fun hk => ⟨Nat.lt_succ_of_lt (h.known k hk).1, (h.known k hk).2⟩
    rcases List.mem_append.mp hk with hk | hk
    · rcases hcases k hk with rfl | hk
      · rw [hserial]
        exact ⟨Nat.lt_succ_self _, hc⟩
      · exact hold (List.mem_append_left _ hk)
    · exact hold (List.mem_append_right _ hk)
  · rw [(hperm.map Call.serial).nodup_iff, List.map_cons, List.nodup_cons]
    exact ⟨hnew, h.once⟩
  · exact hperm.mem_iff.mpr (List.mem_cons_of_mem _ (h.running k hk))
  · exact ⟨Nat.lt_succ_of_lt (h.stamped e he).1, (h.stamped e he).2⟩
  · rcases hcases k hk with rfl | hk
    · have := (h.stamped e he).1
      omega
    · exact h.unanswered k hk e he ht
  · intro hwhole n hn k hk
    by_cases hlast : n = l.taken
    · subst hlast
      rw [show l.callAt l.taken = some k from hk] at hc
      cases hc
      exact Or.inl (hperm.mem_iff.mpr (List.mem_cons_self ..))
    · rcases h.complete hwhole n (Nat.lt_of_le_of_ne (Nat.lt_succ_iff.mp hn) hlast) k hk with hout | hans
      · exact Or.inl (hperm.mem_iff.mpr (List.mem_cons_of_mem _ hout))
      · exact Or.inr hans

theorem late_mono {ev : Event V R} {author : Author} {left left' : List ℕ} (h : ev.Late author left)
    (hsub : ∀ number ∈ left, number ∈ left') : ev.Late author left' := by
  obtain ⟨hsurface, number, hnumber, hauthor⟩ := h
  exact ⟨hsurface, number, hsub number hnumber, hauthor⟩

theorem Balanced.known_cons (h : l.Balanced) {c : Call Id} {number : ℕ} (hc : c ∈ l.outstanding ++ l.children.map Child.call) :
    ∀ k ∈ l.outstanding ++ ((⟨c, number⟩ : Child Id) :: l.children).map Child.call,
      k.serial < l.taken ∧ l.callAt k.serial = some k := by
  intro k hk
  rcases List.mem_append.mp hk with hk | hk
  · exact h.known k (List.mem_append_left _ hk)
  · rcases List.mem_cons.mp hk with rfl | hk
    · exact h.known _ hc
    · exact h.known k (List.mem_append_right _ hk)

theorem Balanced.step (h : l.Balanced) (hop : Op l l') : l'.Balanced := by
  cases hop with
  | moved outstanding hperm => exact h.moved hperm
  | sent f => exact h.sends f
  | passed f hf hnone => exact h.passed hf hnone
  | opened c outstanding hc hperm => exact h.opened hc hperm
  | started c outstanding hidle hperm hc =>
    have hmoved := h.moved hperm
    refine { hmoved with running := fun k hk => ?_, parted := fun k hk => ?_ }
    · cases hk
      exact hc
    · rcases h.parted k hk with hleft | hrun
      · exact Or.inl hleft
      · simp [hidle] at hrun
  | emitted c ev line e hrun hev hw =>
    have hout := h.running c hrun
    exact h.aside hw (h.known c (List.mem_append_left _ hout)) hev fun a ha ht hs =>
      absurd hs.symm (h.unanswered c hout a ha ht)
  | childEmitted k ev line e hk hev hw =>
    have hcall := List.mem_append_right l.outstanding (List.mem_map_of_mem (f := Child.call) hk)
    refine h.aside hw (h.known k.call hcall) (surface_not_terminal hev) fun a ha ht hs => ⟨hev, k.number, ?_, rfl⟩
    rcases h.parted k hk with hleft | hrun
    · exact hleft
    · exact absurd hs.symm (h.unanswered k.call (h.running k.call hrun) a ha ht)
  | born c number hrun =>
    refine { h with known := h.known_cons (h.running c hrun |> List.mem_append_left _), parted := fun k hk => ?_ }
    rcases List.mem_cons.mp hk with rfl | hk
    · exact Or.inr hrun
    · exact h.parted k hk
  | sprung p number hp =>
    have hcall := List.mem_append_right l.outstanding (List.mem_map_of_mem (f := Child.call) hp)
    have hgrown : ∀ n ∈ l.left, n ∈ if p.number ∈ l.left then l.left ++ [number] else l.left := by
      intro n hn
      split
      · exact List.mem_append_left _ hn
      · exact hn
    refine { h with known := h.known_cons hcall, parted := fun k hk => ?_, ordered := h.ordered.imp ?_ }
    · rcases List.mem_cons.mp hk with rfl | hk
      · rcases h.parted p hp with hleft | hrun
        · exact Or.inl (by simp [hleft])
        · exact Or.inr hrun
      · exact (h.parted k hk).imp_left (hgrown k.number)
    · exact fun hlate ht hs => late_mono (hlate ht hs) hgrown
  | died children hsub =>
    refine { h with known := fun k hk => ?_, parted := fun k hk => h.parted k (hsub hk) }
    rcases List.mem_append.mp hk with hk | hk
    · exact h.known k (List.mem_append_left _ hk)
    · exact h.known k (List.mem_append_right _ (List.map_subset Child.call hsub hk))
  | ended =>
    refine { h with running := fun k hk => ?_, parted := fun k hk => ?_, ordered := ?_ }
    · cases hk
    · exact Or.inl (List.mem_append_right _ (List.mem_map_of_mem hk))
    · exact h.ordered.imp fun hlate ht hs => late_mono (hlate ht hs) fun _ hn => List.mem_append_left _ hn
  | answered c rest ev line e hperm hrunner hev hw => exact h.answered hperm hrunner hev hw

theorem Balanced.answers_le (h : l.Balanced) (n : ℕ) :
    (l.line.wire.filter fun e => e.serial = n ∧ e.event.terminal = true).length ≤ 1 := by
  have hpair := h.ordered.sublist (List.filter_sublist (p := fun e => e.serial = n ∧ e.event.terminal = true))
  generalize hl : l.line.wire.filter (fun e => e.serial = n ∧ e.event.terminal = true) = found at hpair
  match found, hl, hpair with
  | [], _, _ => simp
  | [_], _, _ => simp
  | a :: b :: more, hl, hpair =>
    have ha : a ∈ l.line.wire.filter (fun e => e.serial = n ∧ e.event.terminal = true) := by rw [hl]; simp
    have hb : b ∈ l.line.wire.filter (fun e => e.serial = n ∧ e.event.terminal = true) := by rw [hl]; simp
    simp only [List.mem_filter, decide_eq_true_eq] at ha hb
    have := (List.pairwise_cons.mp hpair).1 b (List.mem_cons_self ..) ha.2.2 (hb.2.1.trans ha.2.1.symm)
    simp [surface_not_terminal this.1] at hb

end Ledger

end Ral.Serve
