import Mathlib.Data.Finset.Lattice.Fold
import Mathlib.Order.Lattice.Nat
import Ral.Tree.Calls

/-! # A walk of a finite tree ends

No directory is on the stack twice, so the stack is no deeper than the tree has directories; and each
turn takes an entry, or is done with a directory.
-/

namespace Ral.Tree
open Ral.Path Ral.Authority

/-! ## A stack of counts -/

/-- The turns a directory can take, with `k` directories free to lie above it and `B` entries in
each. -/
def span (B : ℕ) : ℕ → ℕ
  | 0 => 0
  | k + 1 => 1 + B * (1 + span B k)

/-- The turns left of a stack no deeper than `K`, its entries left counted. -/
def weight (B K : ℕ) : List ℕ → ℕ
  | [] => 0
  | left :: rest => 1 + left * (1 + span B (K - (rest.length + 1))) + weight B K rest

section Weight
variable {B K : ℕ} (left : ℕ) (rest : List ℕ)

theorem weight_pop : weight B K rest < weight B K (0 :: rest) := by
  rw [weight]
  omega

theorem weight_take : weight B K (left :: rest) < weight B K ((left + 1) :: rest) := by
  rw [weight, weight, Nat.add_mul]
  omega

theorem weight_push {count : ℕ} (hcount : count ≤ B) (hdeep : rest.length + 2 ≤ K) :
    weight B K (count :: left :: rest) < weight B K ((left + 1) :: rest) := by
  obtain ⟨k, hk⟩ : ∃ k, K - (rest.length + 1) = k + 1 := ⟨K - (rest.length + 2), by omega⟩
  have hk' : K - ((left :: rest).length + 1) = k := by
    rw [List.length_cons]
    omega
  have hspan : count * (1 + span B k) ≤ B * (1 + span B k) := Nat.mul_le_mul_right _ hcount
  rw [weight, weight, weight, hk, hk', Nat.add_mul, span]
  omega

end Weight

/-! ## Finite trees -/

/-- A tree of finitely many objects, no directory beneath itself but through a link. -/
structure Disk.IsFinite (disk : Disk) (objects : Finset ObjectId) : Prop where
  root : disk.rootId ∈ objects
  closed : ∀ dir ∈ objects, ∀ e ∈ disk.entries dir, e.2 ∈ objects
  acyclic : ∀ dir, ¬ Relation.TransGen (Child disk.toFileSystem) dir dir

section Walks
variable [Host] {Cancellation : Type} {objects : Finset ObjectId}

section Finite
variable {disk : Disk}

theorem Disk.IsFinite.lastOf_mem (h : disk.IsFinite objects) {steps : List Step} {dir : ObjectId} (hdir : dir ∈ objects)
    (hentries : disk.Entries dir steps) : FileSystem.lastOf dir steps ∈ objects := by
  induction steps generalizing dir with
  | nil => exact hdir
  | cons s steps ih =>
    rw [FileSystem.lastOf_cons]
    obtain ⟨_, stored, hfind, _⟩ := FileSystem.step_eq_ok.mp hentries.1
    exact ih (h.closed dir hdir _ (List.mem_of_find?_eq_some hfind)) hentries.2

theorem Disk.IsFinite.stands_mem (h : disk.IsFinite objects) {dir : Dir}
    (hdir : (Cursor.beneath dir).Stands disk.toFileSystem) : dir.trace.lastId ∈ objects := by
  rw [← held_eq hdir]
  have htop : (Cursor.beneath dir).top = dir.node.held := by simp [Cursor.top, Cursor.beneath]
  rw [← htop, hdir.top_eq]
  exact h.lastOf_mem h.root hdir.entries

end Finite

namespace Granted

variable [Gitignore] {g : Granted Cancellation} {out : List WalkEntry} {s s' : Entries}

/-- No directory is on the stack twice: with links followed none is entered again on the way down,
and with none followed each lies beneath the next. -/
theorem Standing.nodup (h : g.Standing out s) (hfin : g.disk.IsFinite objects) : (s.stack.map Frame.id).Nodup := by
  by_cases hfollow : g.walk.followLinks = true
  · exact h.fresh hfollow
  · have hlower := h.lower (Bool.eq_false_iff.mpr hfollow)
    rw [List.Nodup, List.pairwise_map]
    apply hlower.imp
    intro upper lower hbeneath heq
    rw [heq] at hbeneath
    exact hfin.acyclic lower.id hbeneath

theorem Standing.length_le (h : g.Standing out s) (hfin : g.disk.IsFinite objects) : s.stack.length ≤ objects.card := by
  have hsubset : (s.stack.map Frame.id).toFinset ⊆ objects := by
    intro id hid
    obtain ⟨f, hf, rfl⟩ := List.mem_map.mp (List.mem_toFinset.mp hid)
    rw [(h.frames f hf).id]
    exact hfin.stands_mem (h.frames f hf).stands
  have hcard := Finset.card_le_card hsubset
  rwa [List.toFinset_card_of_nodup (h.nodup hfin), List.length_map] at hcard

def widest (g : Granted Cancellation) (objects : Finset ObjectId) : ℕ := objects.sup fun dir => (g.disk.entries dir).length

def turnsLeft (g : Granted Cancellation) (objects : Finset ObjectId) (s : Entries) : ℕ :=
  weight (g.widest objects) objects.card (s.stack.map fun f => f.items.length)

variable [Git]

theorem Entered.count_le {dir : Dir} {shown : Shown} {depth : ℕ} {name : Option Name}
    (h : g.Entered dir shown depth name s (.ok (.ok ())) s') (hfin : g.disk.IsFinite objects)
    (stands : (Cursor.beneath dir).Stands g.disk.toFileSystem) :
    ∃ f, s'.stack = f :: s.stack ∧ f.items.length ≤ g.widest objects := by
  cases h with
  | @entered listing _ _ hlisting hpushed _ _ =>
  refine ⟨_, hpushed, ?_⟩
  have hmem : dir.node.held ∈ objects := held_eq stands ▸ hfin.stands_mem stands
  have hwidest : (g.disk.entries dir.node.held).length ≤ g.widest objects :=
    Finset.le_sup (f := fun dir => (g.disk.entries dir).length) hmem
  have hlength := Disk.readDir_length hlisting
  have hfilter := List.length_filter_le (g.admits dir) listing
  show (listing.filter (g.admits dir)).length ≤ _
  omega

theorem turnsLeft_again (hturn : g.turn s = .again s') : g.turnsLeft objects s' < g.turnsLeft objects s := by
  obtain ⟨top, rest, hstack, ⟨hitems, rfl⟩ | ⟨item, items, hitems, rfl, -⟩⟩ := g.turn_again hturn
  · rw [turnsLeft, turnsLeft, hstack, List.map_cons, hitems]
    exact weight_pop _
  · rw [turnsLeft, turnsLeft, hstack, List.map_cons, List.map_cons, hitems]
    exact weight_take _ _

theorem turnsLeft_yields (h : g.Standing out s) (hfin : g.disk.IsFinite objects) {e : WalkEntry}
    (hturn : g.turn s = .yields (.ok e) s') :
    g.turnsLeft objects s' < g.turnsLeft objects s := by
  have hafter := (h.yields hturn).length_le hfin
  obtain ⟨_, ⟨stop, hstop, -⟩ | ⟨top, rest, item, items, found, hstack, hitems, _, _, hstepped⟩⟩ := turn_yields h hturn
  · cases hstop
  · rw [turnsLeft, turnsLeft, hstack, List.map_cons, hitems]
    cases hstepped with
    | kept _ _ hstack' _ =>
      rw [hstack']
      exact weight_take _ _
    | went hopen hentered =>
      obtain ⟨f, hpushed, hcount⟩ := hentered.count_le hfin hopen.stands
      rw [hpushed, List.map_cons, List.map_cons]
      rw [hpushed, List.length_cons, List.length_cons] at hafter
      exact weight_push _ _ hcount (by rwa [List.length_map])

theorem turnsLeft_advance (h : g.Standing out s) (hfin : g.disk.IsFinite objects) {e : WalkEntry}
    (hadvance : (g.advance s).1 = some (.ok e)) :
    g.turnsLeft objects (g.advance s).2 < g.turnsLeft objects s := by
  induction hleft : s.left using Nat.strong_induction_on generalizing s with
  | h left ih =>
    cases hturn : g.turn s with
    | ended =>
      rw [advance_ended hturn] at hadvance
      cases hadvance
    | again s' =>
      obtain ⟨hstanding, -⟩ := h.again hturn
      have hless : s'.left < left := hleft ▸ g.turn_again_left hturn
      rw [advance_again hturn] at hadvance ⊢
      exact (ih s'.left hless hstanding hadvance rfl).trans (turnsLeft_again hturn)
    | yields r s' =>
      rw [advance_yields hturn] at hadvance ⊢
      cases hadvance
      exact turnsLeft_yields h hfin hturn

/-! ## The end -/

theorem calls_length (n : ℕ) : (g.calls n).1.length = n := by
  induction n with
  | zero => rfl
  | succ n ih => rw [calls, List.length_append, ih, List.length_singleton]

theorem calls_over {n : ℕ} (hstarted : (g.calls n).2.started = true) (hstack : (g.calls n).2.stack = []) (m : ℕ)
    (hm : n ≤ m) : (g.calls m).2 = (g.calls n).2 ∧ (g.next (g.calls m).2).1 = none := by
  have hnext : g.next (g.calls n).2 = (none, (g.calls n).2) := by
    rw [next_started hstarted, advance_empty hstack]
  induction m, hm using Nat.le_induction with
  | base => exact ⟨rfl, by rw [hnext]⟩
  | succ m _ ih =>
    have hsame : (g.calls (m + 1)).2 = (g.calls n).2 := by
      rw [calls, ih.1, hnext]
    rw [hsame, hnext]
    exact ⟨rfl, rfl⟩

theorem Ran.next_left {results : List (Option (Except Cancellation WalkEntry))} (h : g.Ran results s)
    (hstarted : s.started = true) (hfin : g.disk.IsFinite objects) : (g.next s).2.stack = [] ∨
      g.turnsLeft objects (g.next s).2 < g.turnsLeft objects s := by
  cases h with
  | start => cases hstarted
  | finished out stop k _ _ _ _ hstack _ =>
    rw [next_started hstarted, advance_empty hstack]
    exact .inl hstack
  | underway out _ _ hy hstanding hcovers =>
    obtain ⟨hadvanced, -⟩ := advance_keeps hy hstanding hcovers
    have hless {e : WalkEntry} := turnsLeft_advance (e := e) hstanding hfin
    rw [next_started hstarted]
    rcases hadvance : g.advance s with ⟨r, s'⟩
    rw [hadvance] at hadvanced hless
    cases hadvanced with
    | ended _ _ _ hstack => exact .inl hstack
    | yielded e _ _ _ => exact .inr (hless rfl)
    | stopped stop _ _ => exact .inl rfl

theorem calls_end (hfin : g.disk.IsFinite objects) : ∃ n, (g.calls n).2.started = true ∧ (g.calls n).2.stack = [] := by
  have hgo (w : ℕ) : ∀ n, (g.calls n).2.started = true → g.turnsLeft objects (g.calls n).2 = w →
      ∃ n, (g.calls n).2.started = true ∧ (g.calls n).2.stack = [] := by
    induction w using Nat.strong_induction_on with
    | h w ih =>
      intro n hstarted hw
      have hstarted' : (g.calls (n + 1)).2.started = true :=
        (g.calls_ran (n + 1)).started.resolve_left (by simp [calls])
      rcases (g.calls_ran n).next_left hstarted hfin with hstack | hless
      · exact ⟨n + 1, hstarted', hstack⟩
      · exact ih _ (hw ▸ hless) (n + 1) hstarted' rfl
  exact hgo _ 1 ((g.calls_ran 1).started.resolve_left (by simp [calls])) rfl

/-- On every finite tree, after any number of calls: the root was returned first, then entries in
name order depth first, then at most one stop, and that the scope's, then nothing; all that was listed
or read the region admits, and every entry beneath the root too, in a directory whose own entry was
seen, as were all above it, and where nothing drops it; no shown path twice, no directory twice on the
stack, the layers in step with it. Once nothing more is returned, and without a stop, no entry of a
directory seen is missing but what is dropped; and in the end nothing is returned. -/
theorem walk_keeps_its_region (hfin : g.disk.IsFinite objects) :
    (∀ n, ∃ out stop k, (g.calls n).1 = returned out stop k ∧
      (0 < n → g.Rooted out ∨ out = [] ∧ stop.isSome) ∧ (∀ c ∈ stop, g.Stops c) ∧ g.Yielded out (g.calls n).2.log ∧
      (∀ e ∈ out, ∀ names, names <+: e.shown.names → names ≠ e.shown.names →
        ∃ a ∈ out, a.shown.names = names ∧ a.found = .seen .dir) ∧
      (out.map fun e => e.shown.asPath).Nodup ∧ ((g.calls n).2.stack.map Frame.id).Nodup ∧
      (stop = none → ∀ rules ∈ (g.calls n).2.rules, rules.InStep (g.calls n).2.stack.length) ∧
      (0 < k → stop = none → ∀ e ∈ out, e.found = .seen .dir → g.Complete out (g.calls n).2.log e)) ∧
    ∃ n, ∀ m, n ≤ m → (g.next (g.calls m).2).1 = none := by
  constructor
  · intro n
    have hran := g.calls_ran n
    have hlength : (g.calls n).1.length = n := calls_length n
    generalize (g.calls n).1 = results at hran hlength
    generalize (g.calls n).2 = s at hran
    cases hran with
    | start =>
      exact ⟨[], none, 0, rfl, fun hn => (hn.ne hlength).elim, by simp,
        ⟨by simp [Clean, entries], by simp, .nil, by simp, by simp⟩, by simp, .nil, .nil, by simp [entries], by simp⟩
    | underway out hrooted _ hy hstanding hcovers =>
      exact ⟨out, none, 0, rfl, fun _ => .inl hrooted, by simp, hy, fun e he _ => hy.above he, hy.shown_nodup,
        hstanding.nodup hfin, fun _ => hstanding.rules, by simp⟩
    | finished out stop k hrooted hstops _ hy hstack hstanding =>
      refine ⟨out, stop, k, rfl, fun _ => hrooted, hstops, hy, fun e he _ => hy.above he, hy.shown_nodup, by simp [hstack],
        fun hnone => (hstanding hnone).1.rules, fun _ hnone e he hfound => ?_⟩
      obtain ⟨f, hf, -⟩ | hcomplete := (hstanding hnone).2.closed e he hfound
      · rw [hstack] at hf
        cases hf
      · exact hcomplete
  · obtain ⟨n, hstarted, hstack⟩ := calls_end hfin
    exact ⟨n, fun m hm => (calls_over hstarted hstack m hm).2⟩

end Granted

end Walks

/-! ## A tree with a link -/

@[reducible] def noIgnores : Gitignore where
  Compiled := Unit
  compile _ := ()
  isEmpty _ := true
  matched _ _ _ := .none

@[reducible] def noGit : Git := ⟨fun _ _ => .done none⟩

def linkedDisk : Disk where
  toFileSystem := linkedFs
  listable _ := .ok ()
  stated _ _ := .ok ()
  content _ := .ok []

def linkedWalk : Granted Unit where
  disk := linkedDisk
  walk := ⟨[separator], true, none, none, true, true⟩
  region := ⟨none⟩
  scope _ := none

theorem linkedDisk_child {c p : ObjectId} (h : Child linkedDisk.toFileSystem c p) : c = dId ∧ p = ⟨1, 2⟩ := by
  obtain ⟨stored, hmem, hkind⟩ := h
  by_cases hp : p = ⟨1, 2⟩
  · subst hp
    have hcases : c = dId ∨ c = lId := by
      have hmem : (stored, c) ∈ [(⟨[100]⟩, dId), (⟨[108]⟩, lId)] := hmem
      simp only [List.mem_cons, Prod.mk.injEq, List.not_mem_nil, or_false] at hmem
      exact hmem.imp And.right And.right
    rcases hcases with rfl | rfl
    · exact ⟨rfl, rfl⟩
    · cases hkind
  · have hentries : linkedDisk.entries p = [] := if_neg hp
    rw [hentries] at hmem
    cases hmem

theorem linkedDisk_isFinite : linkedDisk.IsFinite {⟨1, 2⟩, dId, lId} where
  root := by decide
  closed := by decide
  acyclic := by
    intro dir hdir
    obtain ⟨_, habove, -⟩ := Relation.TransGen.head'_iff.mp hdir
    obtain ⟨_, -, hbelow⟩ := Relation.TransGen.tail'_iff.mp hdir
    have hboth : dId = ⟨1, 2⟩ := (linkedDisk_child habove).1.symm.trans (linkedDisk_child hbelow).2
    cases hboth

/-- The whole of it is returned, the root first, and nothing then. -/
theorem walk_keeps_its_region_linked : ∃ n out k, 0 < k ∧
    (@Granted.calls linux noIgnores noGit _ linkedWalk n).1 = Granted.returned out none k ∧ linkedWalk.Rooted out ∧
      ∀ e ∈ out, e.found = .seen .dir → @Granted.Complete linux noIgnores noGit _ linkedWalk out
        (@Entries.log noIgnores (@Granted.calls linux noIgnores noGit _ linkedWalk n).2) e := by
  obtain ⟨hcalls, n, hover⟩ := @Granted.walk_keeps_its_region linux _ _ noIgnores linkedWalk noGit linkedDisk_isFinite
  obtain ⟨out, stop, k, hreturned, hrooted, hstops, -, -, -, -, -, hcomplete⟩ := hcalls (n + 1)
  have hstop : stop = none := by
    rw [Option.eq_none_iff_forall_not_mem]
    intro c hc
    obtain ⟨_, hscope⟩ := hstops c hc
    cases hscope
  subst hstop
  have hnone : none ∈ Granted.returned out (none : Option Unit) k := by
    rw [← hreturned]
    exact List.mem_append_right _ (List.mem_singleton.mpr (hover n le_rfl).symm)
  have hk : 0 < k := by
    simp only [Granted.returned, List.mem_append, List.mem_map, List.mem_replicate] at hnone
    rcases hnone with (⟨_, _, hsome⟩ | ⟨_, _, hsome⟩) | ⟨hk, -⟩
    · cases hsome
    · cases hsome
    · omega
  refine ⟨n + 1, out, k, hk, hreturned, (hrooted (by omega)).resolve_right (by simp), hcomplete hk rfl⟩

end Ral.Tree
