import Ral.Tree.Coverage

/-! # A walk called to its end

Whatever the number of calls, what they returned is the root, then its entries in order, then at most
one stop, then nothing; on a finite tree the nothing comes.
-/

namespace Ral.Tree
open Ral.Path Ral.Authority

/-! ## Shown names -/

theorem Name.getLast?_ne {n : Name} (h : n.IsEntry) (path : PathBuf) :
    path ++ n.bytes ≠ [] ∧ (path ++ n.bytes).getLast? ≠ some separator := by
  constructor
  · simp [h.1]
  · rw [List.getLast?_append_of_ne_nil _ h.1]
    exact fun hlast => h.2.2.2 (List.mem_of_getLast? hlast)

theorem foldl_join {names : List Name} (h : ∀ n ∈ names, n.IsEntry) (path : PathBuf)
    (hpath : path ≠ [] ∧ path.getLast? ≠ some separator) :
    names.foldl (fun path name => join path name.bytes) path = path ++ names.flatMap fun n => separator :: n.bytes := by
  induction names generalizing path with
  | nil => simp
  | cons n names ih =>
    have hn := h n List.mem_cons_self
    have hjoin : join path n.bytes = (path ++ [separator]) ++ n.bytes := by
      rw [join, if_neg (not_or.mpr hpath)]
      simp
    rw [List.foldl_cons, hjoin, ih (fun m hm => h m (List.mem_cons_of_mem n hm)) _ (Name.getLast?_ne hn _)]
    simp

def opening (root : PathBuf) : PathBuf :=
  if root = [] ∨ root.getLast? = some separator then root else root ++ [separator]

theorem Shown.asPath_cons {root : PathBuf} {n : Name} {names : List Name} (h : ∀ m ∈ n :: names, m.IsEntry) :
    asPath ⟨root, n :: names⟩ = opening root ++ (n.bytes ++ names.flatMap fun m => separator :: m.bytes) := by
  have hn := h n List.mem_cons_self
  have hjoin : join root n.bytes = opening root ++ n.bytes := by
    rw [join, opening]
    split <;> simp
  rw [asPath, List.foldl_cons, hjoin,
    foldl_join (fun m hm => h m (List.mem_cons_of_mem n hm)) _ (Name.getLast?_ne hn _), List.append_assoc]

theorem Shown.asPath_injective {root : PathBuf} {names names' : List Name} (h : ∀ n ∈ names, n.IsEntry)
    (h' : ∀ n ∈ names', n.IsEntry) (heq : asPath ⟨root, names⟩ = asPath ⟨root, names'⟩) : names = names' := by
  have hlonger {n : Name} {names : List Name} (h : ∀ m ∈ n :: names, m.IsEntry) :
      asPath ⟨root, n :: names⟩ ≠ root := by
    intro hroot
    have hlength := congrArg List.length hroot
    have hbytes := List.length_pos_of_ne_nil (h n List.mem_cons_self).1
    rw [asPath_cons h, opening] at hlength
    split at hlength <;> simp only [List.length_append] at hlength <;> omega
  cases names with
  | nil =>
    cases names' with
    | nil => rfl
    | cons n' names' => exact (hlonger h' heq.symm).elim
  | cons n names =>
    cases names' with
    | nil => exact (hlonger h heq).elim
    | cons n' names' =>
      rw [asPath_cons h, asPath_cons h'] at heq
      have hreal : RealPath.asPath ⟨[], n :: names⟩ = RealPath.asPath ⟨[], n' :: names'⟩ := by
        rw [RealPath.asPath, RealPath.asPath, if_neg (List.cons_ne_nil _ _), if_neg (List.cons_ne_nil _ _),
          List.flatMap_cons, List.flatMap_cons, List.cons_append, List.cons_append, List.append_cancel_left heq]
      have hsplit := congrArg (fun path => (split path).names) hreal
      simp only [RealPath.split_asPath (p := ⟨[], n :: names⟩) h, RealPath.split_asPath (p := ⟨[], n' :: names'⟩) h']
        at hsplit
      refine List.map_injective_iff.mpr ?_ hsplit
      intro a b hab
      cases hab
      rfl

namespace Granted

variable {Cancellation : Type} {g : Granted Cancellation} {out : List WalkEntry}

/-! ## What calls return -/

def returned (out : List WalkEntry) (stop : Option Cancellation) (k : ℕ) :
    List (Option (Except Cancellation WalkEntry)) :=
  out.map (fun e => some (.ok e)) ++ stop.toList.map (fun stop => some (.error stop)) ++ List.replicate k none

def Rooted (g : Granted Cancellation) (out : List WalkEntry) : Prop := ∃ e ∈ out.head?, e.shown = ⟨g.walk.root, []⟩

theorem returned_snoc (out : List WalkEntry) (e : WalkEntry) :
    returned out (none : Option Cancellation) 0 ++ [some (.ok e)] = returned (out ++ [e]) none 0 := by
  simp [returned]

theorem returned_stop (out : List WalkEntry) (stop : Cancellation) :
    returned out none 0 ++ [some (.error stop)] = returned out (some stop) 0 := by
  simp [returned]

theorem returned_none (out : List WalkEntry) (stop : Option Cancellation) (k : ℕ) :
    returned out stop k ++ [none] = returned out stop (k + 1) := by
  simp [returned, List.replicate_succ']

theorem Rooted.snoc (h : g.Rooted out) (e : WalkEntry) : g.Rooted (out ++ [e]) := by
  obtain ⟨first, hfirst, hshown⟩ := h
  exact ⟨first, List.mem_head?_append_of_mem_head? hfirst, hshown⟩

variable [Host] [Gitignore] [Git] {s s' : Entries}

/-! ## One call -/

theorem advance_ended (h : g.turn s = .ended) : g.advance s = (none, s) := by
  rw [advance]
  split
  · rfl
  · next hagain => cases h.symm.trans hagain
  · next hyields => cases h.symm.trans hyields

theorem advance_again (h : g.turn s = .again s') : g.advance s = g.advance s' := by
  rw [advance]
  split
  · next hended => cases h.symm.trans hended
  · next hagain =>
    cases h.symm.trans hagain
    rfl
  · next hyields => cases h.symm.trans hyields

theorem advance_yields {r : Except Cancellation WalkEntry} (h : g.turn s = .yields r s') :
    g.advance s = (some r, s') := by
  rw [advance]
  split
  · next hended => cases h.symm.trans hended
  · next hagain => cases h.symm.trans hagain
  · next hyields =>
    cases h.symm.trans hyields
    rfl

/-- What going on beneath the root comes to. -/
inductive Advanced (g : Granted Cancellation) (out : List WalkEntry) :
    Option (Except Cancellation WalkEntry) → Entries → Prop
  | ended {s : Entries} : g.Yielded out s.log → g.Standing out s → g.Covers out s → s.stack = [] →
      Advanced g out none s
  | yielded (e : WalkEntry) {s : Entries} : g.Yielded (out ++ [e]) s.log → g.Standing (out ++ [e]) s →
      g.Covers (out ++ [e]) s → Advanced g out (some (.ok e)) s
  | stopped (stop : Cancellation) {s : Entries} : g.Yielded out s.log → g.Stops stop →
      Advanced g out (some (.error stop)) s

theorem advance_keeps (hy : g.Yielded out s.log) (h : g.Standing out s) (hc : g.Covers out s) :
    g.Advanced out (g.advance s).1 (g.advance s).2 ∧ (g.advance s).2.started = s.started := by
  induction hleft : s.left using Nat.strong_induction_on generalizing s with
  | h left ih =>
    cases hturn : g.turn s with
    | ended =>
      rw [advance_ended hturn]
      exact ⟨.ended hy h hc (turn_ended hturn), rfl⟩
    | again s' =>
      obtain ⟨hstanding, hlog, hstarted⟩ := h.again hturn
      have hless : s'.left < left := hleft ▸ g.turn_again_left hturn
      rw [advance_again hturn, ← hstarted]
      exact ih s'.left hless (hlog ▸ hy) hstanding (hc.again h hturn) rfl
    | yields r s' =>
      obtain ⟨hgrown, hcases⟩ := turn_yields h hturn
      rw [advance_yields hturn]
      refine ⟨?_, hgrown.started⟩
      cases r with
      | error stop =>
        obtain ⟨_, hstop, hstops⟩ | ⟨_, _, _, _, _, _, _, he, -⟩ := hcases
        · cases hstop
          exact .stopped stop (hy.later hgrown.kept (hgrown.clean hy.clean)) hstops
        · cases he
      | ok e =>
        obtain ⟨hc', hy'⟩ := hc.yields h hy hturn
        exact .yielded e hy' (h.yields hturn) hc'

/-! ## The root -/

omit [Git] in
theorem Standing.empty (hstack : s.stack = []) (hrules : ∀ rules ∈ s.rules, rules.InStep 0) : g.Standing out s := by
  constructor
  case frames => simp [hstack]
  case nested => simp [hstack]
  case fresh => simp [hstack]
  case lower => simp [hstack]
  case ahead => simp [hstack]
  case rules => simpa [hstack] using hrules

theorem Yielded.root {e : WalkEntry} {log : List Access} (clean : g.Clean log) (hshown : e.shown = ⟨g.walk.root, []⟩)
    (hdepth : e.depth = 0) : g.Yielded [e] log := by
  refine ⟨clean, ?_, List.pairwise_singleton _ _, ?_, ?_⟩
  · intro e' he'
    rw [List.mem_singleton.mp he', hshown, hdepth]
    exact ⟨rfl, rfl⟩
  · intro e' he' n hn
    rw [List.mem_singleton.mp he', hshown] at hn
    exact (List.not_mem_nil hn).elim
  · intro e' he' hne
    rw [List.mem_singleton.mp he', hshown] at hne
    exact (hne rfl).elim

theorem Covers.empty (hstack : s.stack = []) (h : ∀ e ∈ out, e.found ≠ .seen .dir) : g.Covers out s where
  covered := by
    rw [hstack]
    trivial
  closed e he hfound := (h e he hfound).elim

/-- The root's directory entered: it is the one directory on the stack. -/
theorem Standing.enterRoot {dir : Dir} (hdir : walkDir g.disk.toFileSystem g.walk.root = .ok dir) (hstack : s.stack = [])
    (hrules : ∀ rules ∈ s.rules, rules.InStep 0) {e : WalkEntry} (hshown : e.shown = ⟨g.walk.root, []⟩)
    (hfound : e.found = .seen .dir) (hentered : g.Entered dir ⟨g.walk.root, []⟩ 0 none s (.ok (.ok ())) s') :
    g.Standing [e] s' := by
  cases hentered with
  | @entered listing log _ hlisting hpushed hlisted hentering =>
  rw [hstack] at hpushed
  have halone {f : Frame} (hf : f ∈ s'.stack) : f = ⟨dir, dir.trace.lastId, ⟨g.walk.root, []⟩, 0,
      listing.filter (g.admits dir)⟩ := by
    rw [hpushed] at hf
    exact List.mem_singleton.mp hf
  constructor
  case frames =>
    intro f hf
    rw [halone hf]
    refine ⟨rfl, rfl, rfl, walkDir_stands hdir, ?_, hlisted, ⟨listing, hlisting, ?_⟩,
      ⟨e, List.mem_singleton_self e, hshown, hfound⟩⟩
    · exact (Disk.readDir_sorted hlisting).filter _
    · exact fun i hi => ⟨(List.mem_filter.mp hi).1, (List.mem_filter.mp hi).2⟩
  case nested =>
    rw [hpushed]
    exact List.pairwise_singleton _ _
  case fresh =>
    intro _
    rw [hpushed]
    exact List.nodup_singleton _
  case lower =>
    intro _
    rw [hpushed]
    exact List.pairwise_singleton _ _
  case ahead =>
    intro e' he' f hf i hi
    rw [List.mem_singleton.mp he', hshown, halone hf]
    exact lt_child [] i.name
  case rules =>
    intro rules' hrules'
    rw [hentering] at hrules'
    obtain ⟨rules, hmem, rfl⟩ := Option.map_eq_some_iff.mp hrules'
    rw [hpushed]
    exact (hrules rules hmem).push rfl

theorem Covers.enterRoot {dir : Dir} (hdir : walkDir g.disk.toFileSystem g.walk.root = .ok dir) (hstack : s.stack = [])
    {above : List Access} (hrules : s.rules = if g.walk.ignores then some (g.ancestry dir above).1 else none)
    {e : WalkEntry} (hshown : e.shown = ⟨g.walk.root, []⟩)
    (hentered : g.Entered dir ⟨g.walk.root, []⟩ 0 none s (.ok (.ok ())) s') : g.Covers [e] s' := by
  cases hentered with
  | @entered listing log _ hlisting hpushed hlisted hentering =>
  rw [hstack] at hpushed
  constructor
  · rw [hpushed, hentering, hrules]
    refine ⟨⟨.root above log hdir hlisting, listing, hlisting, ?_⟩, trivial⟩
    intro item hitem hadmits
    exact .inl (List.mem_filter.mpr ⟨hitem, hadmits⟩)
  · intro e' he' _
    rw [hpushed, List.mem_singleton.mp he', hshown]
    exact .inl ⟨_, List.mem_singleton_self _, rfl⟩

theorem enterRoot_keeps {dir : Dir} (hdir : walkDir g.disk.toFileSystem g.walk.root = .ok dir) (hstack : s.stack = [])
    (hrules : s.rules = none) {r : Except Cancellation Found} (h : g.enterRoot dir s = (r, s')) :
    g.Grown s s' ∧ (∀ stop, r = .error stop → g.Stops stop) ∧
      ∀ found, r = .ok found → g.Standing [⟨⟨g.walk.root, []⟩, 0, found⟩] s' ∧
        g.Covers [⟨⟨g.walk.root, []⟩, 0, found⟩] s' := by
  have hclosed : ∀ rules ∈ s.rules, rules.InStep 0 := by simp [hrules]
  unfold enterRoot at h
  split at h
  · next hjudged =>
    split at h
    · cases h
      refine ⟨.refl s, by simp, ?_⟩
      rintro found ⟨⟩
      exact ⟨.empty hstack hclosed, .empty hstack (by simp [Found.pruned])⟩
    · dsimp only at h
      generalize hat : (if g.walk.ignores = true then _ else _ : Entries) = at_ at h
      have hready : g.Grown s at_ ∧ at_.stack = [] ∧ (∀ rules ∈ at_.rules, rules.InStep 0) ∧
          at_.rules = if g.walk.ignores then some (g.ancestry dir s.log).1 else none := by
        rw [← hat]
        split
        · obtain ⟨hkept, hclean⟩ := guarded_ancestry dir (g := g) s.log
          refine ⟨⟨hclean, hkept, rfl⟩, hstack, ?_, rfl⟩
          rintro rules ⟨⟩
          exact ancestry_inStep dir s.log
        · exact ⟨⟨id, List.prefix_rfl, rfl⟩, hstack, hclosed, hrules⟩
      obtain ⟨hgrown, hempty, hlayers, hforce⟩ := hready
      split at h
      · next henter =>
        cases h
        obtain ⟨hmore, hentered⟩ := enter_cases henter hjudged
        refine ⟨hgrown.trans hmore, ?_, by simp⟩
        rintro stop ⟨⟩
        cases hentered with
        | stopped _ hstops => exact hstops
      · next henter =>
        cases h
        obtain ⟨hmore, hentered⟩ := enter_cases henter hjudged
        refine ⟨hgrown.trans hmore, by simp, ?_⟩
        rintro found ⟨⟩
        exact ⟨.enterRoot hdir hempty hlayers rfl rfl hentered, .enterRoot hdir hempty hforce rfl hentered⟩
      · next henter =>
        cases h
        obtain ⟨hmore, hentered⟩ := enter_cases henter hjudged
        refine ⟨hgrown.trans hmore, by simp, ?_⟩
        rintro found ⟨⟩
        cases hentered with
        | unlisted _ hstack' hrules' =>
          exact ⟨.empty (hstack'.trans hempty) fun rules hmem => hlayers rules (hrules' ▸ hmem),
            .empty (hstack'.trans hempty) (by simp [Found.refused])⟩
  · cases h
    refine ⟨.refl s, by simp, ?_⟩
    rintro found ⟨⟩
    exact ⟨.empty hstack hclosed, .empty hstack (by simp)⟩

omit [Gitignore] [Git] in
theorem shallowRoot_ne (why : IoError) : g.shallowRoot why ≠ .seen .dir := by
  unfold shallowRoot
  dsimp only
  split
  · simp
  · split
    · split
      · simp
      · simp [Found.refused]
      · next stat hne hkind =>
        rw [Ne, Found.seen.injEq]
        rintro rfl
        exact hne rfl
    · simp

theorem root_keeps (hstack : s.stack = []) (hrules : s.rules = none) {r : Except Cancellation WalkEntry}
    (h : g.root s = (r, s')) : g.Grown s s' ∧ (∀ stop, r = .error stop → g.Stops stop) ∧
      ∀ e, r = .ok e → e.shown = ⟨g.walk.root, []⟩ ∧ e.depth = 0 ∧ g.Standing [e] s' ∧ g.Covers [e] s' := by
  unfold root at h
  split at h
  · next hpoll =>
    cases h
    rw [g.poll_error hpoll]
    refine ⟨.refl s, ?_, by simp⟩
    rintro _ ⟨⟩
    exact g.poll_stops hpoll
  · next hpoll =>
    have hpolled := g.poll_ok hpoll
    split at h
    · cases h
      rw [hpolled]
      refine ⟨⟨id, List.prefix_rfl, rfl⟩, by simp, ?_⟩
      rintro e ⟨⟩
      exact ⟨rfl, rfl, .empty hstack (by simp [hrules]), .empty hstack (by simp [shallowRoot_ne])⟩
    · next dir hdir =>
      rw [hpolled] at h
      split at h
      · next hroot =>
        cases h
        obtain ⟨hgrown, hstops, -⟩ := enterRoot_keeps (s := { s with polled := s.polled + 1 }) hdir hstack hrules hroot
        refine ⟨⟨hgrown.clean, hgrown.kept, hgrown.started⟩, ?_, by simp⟩
        rintro _ ⟨⟩
        exact hstops _ rfl
      · next hroot =>
        cases h
        obtain ⟨hgrown, -, hkeeps⟩ := enterRoot_keeps (s := { s with polled := s.polled + 1 }) hdir hstack hrules hroot
        refine ⟨⟨hgrown.clean, hgrown.kept, hgrown.started⟩, by simp, ?_⟩
        rintro e ⟨⟩
        exact ⟨rfl, rfl, hkeeps _ rfl⟩

/-! ## The entries above one -/

theorem Yielded.above {log : List Access} (h : g.Yielded out log) {e : WalkEntry} (he : e ∈ out) {names : List Name}
    (hinit : names <+: e.shown.names) (hne : names ≠ e.shown.names) :
    ∃ a ∈ out, a.shown.names = names ∧ a.found = .seen .dir := by
  induction hlength : e.shown.names.length using Nat.strong_induction_on generalizing e with
  | h length ih =>
    have hdeep : e.shown.names ≠ [] := by
      intro hnil
      rw [hnil, List.prefix_nil] at hinit
      exact hne (hinit.trans hnil.symm)
    obtain ⟨parent, hparent, _, _, _, item, hseen, hshown, -⟩ := h.beneath e he hdeep
    have hnames : e.shown.names = parent.shown.names ++ [item.name] := by rw [hshown]; rfl
    rw [hnames, List.prefix_concat_iff, ← hnames] at hinit
    have hinit' := hinit.resolve_left hne
    by_cases hsame : names = parent.shown.names
    · exact ⟨parent, hparent, hsame.symm, hseen⟩
    · have hless : parent.shown.names.length < length := by
        rw [← hlength, hnames, List.length_append, List.length_singleton]
        omega
      exact ih _ hless hparent hinit' hsame rfl

theorem Yielded.shown_nodup {log : List Access} (h : g.Yielded out log) :
    (out.map fun e => e.shown.asPath).Nodup := by
  rw [List.Nodup, List.pairwise_map]
  refine h.ordered.imp_of_mem ?_
  rintro ⟨⟨_, a⟩, _, _⟩ ⟨⟨_, b⟩, _, _⟩ ha hb hless heq
  have hrootA := (h.rooted _ ha).1
  have hrootB := (h.rooted _ hb).1
  dsimp only at hrootA hrootB hless heq
  subst hrootA hrootB
  have hnames := Shown.asPath_injective (h.named _ ha) (h.named _ hb) heq
  dsimp only at hnames
  rw [hnames] at hless
  exact lt_irrefl _ hless

/-! ## Any number of calls -/

/-- Where a walk is after some calls: not begun, under way, or over. -/
inductive Ran (g : Granted Cancellation) : List (Option (Except Cancellation WalkEntry)) → Entries → Prop
  | start : Ran g [] entries
  | underway (out : List WalkEntry) {s : Entries} : g.Rooted out → s.started = true → g.Yielded out s.log →
      g.Standing out s → g.Covers out s → Ran g (returned out none 0) s
  | finished (out : List WalkEntry) (stop : Option Cancellation) (k : ℕ) {s : Entries} :
      g.Rooted out ∨ out = [] ∧ stop.isSome → (∀ c ∈ stop, g.Stops c) → s.started = true → g.Yielded out s.log →
      s.stack = [] → (stop = none → g.Standing out s ∧ g.Covers out s) → Ran g (returned out stop k) s

theorem advance_empty (h : s.stack = []) : g.advance s = (none, s) := by
  apply advance_ended
  unfold turn
  rw [h]

theorem next_started (hstarted : s.started = true) : g.next s = match g.advance s with
    | (some (.error stop), s) => (some (.error stop), { s with stack := [] })
    | (result, s) => (result, s) := by
  rw [next, if_pos hstarted]
  rcases g.advance s with ⟨_ | _ | _, s'⟩ <;> rfl

theorem next_entries : g.next entries = match g.root { entries with started := true } with
    | (.error stop, s) => (some (.error stop), { s with stack := [] })
    | (.ok e, s) => (some (.ok e), s) := by
  rw [next, if_neg (by simp [entries])]
  rcases g.root { entries with started := true } with ⟨_ | _, s'⟩ <;> rfl

theorem Ran.first : g.Ran [(g.next entries).1] (g.next entries).2 := by
  have hnothing : g.Clean [] := fun _ ha => (List.not_mem_nil ha).elim
  rw [next_entries]
  rcases hroot : g.root { entries with started := true } with ⟨r, s'⟩
  obtain ⟨hgrown, hstops, hkept⟩ := root_keeps rfl rfl hroot
  cases r with
  | error stop =>
    have hnone : g.Yielded [] s'.log :=
      ⟨hgrown.clean hnothing, by simp, List.Pairwise.nil, by simp, by simp⟩
    refine .finished [] (some stop) 0 (.inr ⟨rfl, rfl⟩) ?_ hgrown.started hnone rfl (by simp)
    rintro c ⟨⟩
    exact hstops stop rfl
  | ok e =>
    obtain ⟨hshown, hdepth, hstanding, hcovers⟩ := hkept e rfl
    exact .underway [e] ⟨e, rfl, hshown⟩ hgrown.started (.root (hgrown.clean hnothing) hshown hdepth) hstanding hcovers

/-- One more call. -/
theorem Ran.next {results : List (Option (Except Cancellation WalkEntry))} (h : g.Ran results s) :
    g.Ran (results ++ [(g.next s).1]) (g.next s).2 := by
  cases h with
  | start => exact .first
  | underway out hrooted hstarted hy hstanding hcovers =>
    obtain ⟨hadvanced, hinit⟩ := advance_keeps hy hstanding hcovers
    rw [next_started hstarted]
    rcases hadvance : g.advance s with ⟨r, s'⟩
    rw [hadvance] at hadvanced hinit
    have hstarted' : s'.started = true := hinit.trans hstarted
    cases hadvanced with
    | ended hy' hstanding' hcovers' hstack =>
      have hfinished := Ran.finished out none 1 (.inl hrooted) (by simp) hstarted' hy' hstack
        fun _ => ⟨hstanding', hcovers'⟩
      rwa [← returned_none] at hfinished
    | yielded e hy' hstanding' hcovers' =>
      have hunderway := Ran.underway (out ++ [e]) (hrooted.snoc e) hstarted' hy' hstanding' hcovers'
      rwa [← returned_snoc] at hunderway
    | stopped stop hy' hstops =>
      have hfinished := Ran.finished (s := { s' with stack := [] }) out (some stop) 0 (.inl hrooted)
        (by simpa using hstops) hstarted' hy' rfl (by simp)
      rwa [← returned_stop] at hfinished
  | finished out stop k hrooted hstops hstarted hy hstack hstanding =>
    rw [next_started hstarted, advance_empty hstack]
    have hfinished := Ran.finished out stop (k + 1) hrooted hstops hstarted hy hstack hstanding
    rwa [← returned_none] at hfinished

theorem Ran.started {results : List (Option (Except Cancellation WalkEntry))} (h : g.Ran results s) :
    results = [] ∨ s.started = true := by
  cases h with
  | start => exact .inl rfl
  | underway _ _ hstarted => exact .inr hstarted
  | finished _ _ _ _ _ hstarted => exact .inr hstarted

theorem calls_ran (n : ℕ) : g.Ran (g.calls n).1 (g.calls n).2 := by
  induction n with
  | zero => exact .start
  | succ n ih => exact ih.next

end Granted

end Ral.Tree
