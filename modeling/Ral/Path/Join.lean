import Ral.Path.Folding

/-! # Folding is a normal form, and joining respects it

A subpath is joined onto a base name by name. What the fold leaves of a path it leaves alone again,
and the fold of a join does not depend on whether the base was folded first.
-/

namespace Ral.Path.Lex

/-! ## Joining -/

namespace Parsed

/-- Fully qualified, so never joined onto another path. -/
def isAbsolute (p : Parsed) : Bool :=
  match p.rules, p.kind with
  | .posix, .posix => true
  | .windows, .drive _ _ | .windows, .unc _ | .windows, .device | .windows, .malformed => true
  | _, _ => false

def isWorkingDirectory (p : Parsed) : Bool :=
  match p.rules, p.kind with
  | .posix, .posix => true
  | .windows, .drive _ _ | .windows, .unc _ => true
  | _, _ => false

/-- Opens with an ordinary drive, rooted on it or not. -/
def hasDrive (p : Parsed) : Bool :=
  p.spelling.ns.isNone &&
    match p.kind with
    | .drive _ _ | .driveRelative _ => true
    | _ => false

end Parsed

def absoluteUnder (path : List UInt8) (rules : PathRules) : Bool := (parseBytes path rules).isAbsolute

def hasDrive (path : List UInt8) : Bool := (parseBytes path .windows).hasDrive

/-- A subpath that names a volume of its own, and would replace its base. -/
structure Rerooting where
deriving DecidableEq

def subNames (sub : List UInt8) (rules : PathRules) : List (List UInt8) :=
  (sub.splitOnP (isSepByte rules)).filter (· ≠ [])

/-- No separator is due between the base and a name. -/
def isOpen (rules : PathRules) (base : List UInt8) : Bool :=
  match base with
  | [] => true
  | [d, c] => if c = colon ∧ rules = .windows then isAsciiAlphabetic d else isSepByte rules c
  | base => base.getLast?.any (isSepByte rules)

def push (rules : PathRules) (tail : List UInt8 × Bool) (name : List UInt8) : List UInt8 × Bool :=
  ((if tail.2 then tail.1 else tail.1 ++ [separator rules]) ++ name, false)

def appended (base sub : List UInt8) (rules : PathRules) : Except Rerooting (List UInt8) :=
  let names := subNames sub rules
  if rules = .windows ∧ (absoluteUnder sub .windows ∨ names.any hasDrive) then .error {}
  else .ok (names.foldl (push rules) ([], isOpen rules base)).1

def joinUnder (base sub : List UInt8) (rules : PathRules) : Except Rerooting (List UInt8) := do
  let tail ← appended base sub rules
  return base ++ tail

/-! ## Normal names -/

/-- No empty name or dot, and no parent past a root or after another name. -/
structure Normal (rules : PathRules) (rooted : Bool) (names : List (List UInt8)) : Prop where
  name : ∀ n ∈ names, n ≠ [] ∧ Solid rules n ∧ n ≠ here
  rootless : rooted = true → parent ∉ names
  parents : names.Pairwise fun a b => b = parent → a = parent

section Names
variable {rules : PathRules} {rooted : Bool} {names parts : List (List UInt8)}

theorem Normal.nil : Normal rules rooted [] := ⟨nofun, fun _ => List.not_mem_nil, .nil⟩

theorem Normal.foldName (h : Normal rules rooted names) {part : List UInt8} (hpart : Solid rules part) :
    Normal rules rooted (foldName rooted names part) := by
  unfold Lex.foldName
  split
  · exact h
  next hdrop =>
  split
  · exact ⟨fun n hn => h.name n (List.dropLast_subset _ hn), fun hr hmem => h.rootless hr (List.dropLast_subset _ hmem),
      h.parents.sublist (List.dropLast_sublist _)⟩
  next htakes =>
  split
  · exact h
  next hroot =>
  have hname : ∀ n ∈ names ++ [part], n ≠ [] ∧ Solid rules n ∧ n ≠ here := by
    intro n hn
    rcases List.mem_append.mp hn with hn | hn
    · exact h.name n hn
    · rw [List.mem_singleton.mp hn]
      exact ⟨fun he => hdrop (.inl he), hpart, fun he => hdrop (.inr he)⟩
  constructor
  · exact hname
  · intro hr hmem
    rcases List.mem_append.mp hmem with hmem | hmem
    · exact h.rootless hr hmem
    · exact hroot ⟨(List.mem_singleton.mp hmem).symm, hr⟩
  · rw [List.pairwise_append]
    refine ⟨h.parents, List.pairwise_singleton _ _, ?_⟩
    intro a ha b hb hparent
    rw [List.mem_singleton.mp hb] at hparent
    -- a parent that is kept has only parents before it: the last is one, and so are all
    have hlast : names.getLast?.any (· != parent) = false := by
      rw [Bool.eq_false_iff]
      exact fun hany => htakes ⟨hparent, hany⟩
    cases names using List.reverseRecOn with
    | nil => cases ha
    | append_singleton front last =>
      have hlast' : last = parent := by simpa using hlast
      rcases List.mem_append.mp ha with ha | ha
      · exact (List.pairwise_append.mp h.parents).2.2 a ha last (List.mem_singleton_self _) hlast'
      · rw [List.mem_singleton.mp ha, hlast']

theorem Normal.foldl (h : Normal rules rooted names) (hparts : ∀ part ∈ parts, Solid rules part) :
    Normal rules rooted (parts.foldl (Lex.foldName rooted) names) := by
  induction parts generalizing names with
  | nil => exact h
  | cons part parts ih =>
    exact ih (h.foldName (hparts part List.mem_cons_self)) fun p hp => hparts p (List.mem_cons_of_mem _ hp)

theorem normal_foldNames (hparts : ∀ part ∈ parts, Solid rules part) : Normal rules rooted (foldNames rooted parts) :=
  Normal.nil.foldl hparts

theorem Normal.foldNames_eq (h : Normal rules rooted names) : foldNames rooted names = names := by
  induction names using List.reverseRecOn with
  | nil => rfl
  | append_singleton names n ih =>
    have hfront : Normal rules rooted names := ⟨fun m hm => h.name m (List.mem_append_left _ hm),
      fun hr hmem => h.rootless hr (List.mem_append_left _ hmem), (List.pairwise_append.mp h.parents).1⟩
    have hn := h.name n (by simp)
    rw [foldNames_append, ih hfront, Lex.foldName, if_neg (not_or.mpr ⟨hn.1, hn.2.2⟩)]
    have htakes : ¬(n = parent ∧ names.getLast?.any (· != parent) = true) := by
      rintro ⟨hparent, hany⟩
      obtain ⟨last, hlast, hne⟩ := Option.any_eq_true _ _ |>.mp hany
      have := (List.pairwise_append.mp h.parents).2.2 last (List.mem_of_getLast? hlast) n (List.mem_singleton_self _) hparent
      simp [this] at hne
    have hroot : ¬(n = parent ∧ rooted = true) := by
      rintro ⟨hparent, hr⟩
      exact h.rootless hr (by simp [hparent])
    rw [if_neg htakes, if_neg hroot]

/-! ## Names split and joined -/

theorem splitOnP_join (hne : names ≠ []) (h : ∀ n ∈ names, Solid rules n) :
    ([separator rules].intercalate names).splitOnP (isSepByte rules) = names := by
  induction names with
  | nil => exact absurd rfl hne
  | cons n names ih =>
    have hn := h n List.mem_cons_self
    cases names with
    | nil =>
      rw [show [separator rules].intercalate [n] = n by simp [List.intercalate]]
      exact List.splitOnP_eq_singleton hn
    | cons m names =>
      have hjoin : [separator rules].intercalate (n :: m :: names) =
          n ++ separator rules :: [separator rules].intercalate (m :: names) := by simp [List.intercalate]
      rw [hjoin, List.splitOnP_append_cons_of_forall_mem hn _ (isSepByte_separator rules),
        ih (List.cons_ne_nil _ _) fun k hk => h k (List.mem_cons_of_mem _ hk)]

theorem foldName_nil (rooted : Bool) (names : List (List UInt8)) : foldName rooted names [] = names := by
  simp [foldName]

theorem foldl_split_join (h : ∀ n ∈ names, Solid rules n) (init : List (List UInt8)) :
    (([separator rules].intercalate names).splitOnP (isSepByte rules)).foldl (foldName rooted) init =
      names.foldl (foldName rooted) init := by
  cases names with
  | nil => simp [List.intercalate, foldName_nil]
  | cons n names => rw [splitOnP_join (List.cons_ne_nil _ _) h]

theorem normal_joined (rules : PathRules) (rooted : Bool) (tail : List UInt8) :
    Normal rules rooted (foldNames rooted (tail.splitOnP (isSepByte rules))) :=
  normal_foldNames fun _ => solid_of_mem_splitOnP

theorem foldNames_joined (rules : PathRules) (rooted : Bool) (tail : List UInt8) :
    foldNames rooted ((joined rules rooted tail).splitOnP (isSepByte rules)) =
      foldNames rooted (tail.splitOnP (isSepByte rules)) := by
  have hnormal := normal_joined rules rooted tail
  rw [joined, foldNames, foldl_split_join fun n hn => (hnormal.name n hn).2.1]
  exact hnormal.foldNames_eq

theorem joined_joined (rules : PathRules) (rooted : Bool) (tail : List UInt8) :
    joined rules rooted (joined rules rooted tail) = joined rules rooted tail := by
  rw [joined, foldNames_joined]
  rfl

end Names

/-! ## Openings -/

/-- A path opening with `head` folds it to `kept`, and reads the same there, before any tail that
fits. -/
structure Opening (rules : PathRules) (head kept : List UInt8) (rooted : Bool) (fits : List UInt8 → Prop) : Prop where
  ne_nil : kept ≠ []
  fold : ∀ rest, fits rest → foldBytes (head ++ rest) rules = kept ++ joined rules rooted rest
  again : ∀ rest, fits rest → foldBytes (kept ++ rest) rules = kept ++ joined rules rooted rest
  cut : ∀ rest, fits rest → (parseBytes (kept ++ rest) rules).headLen = kept.length ∧
    (parseBytes (kept ++ rest) rules).isRooted = rooted
  joined : ∀ rest, fits rest → fits (joined rules rooted rest)

/-- No name of the path is empty or a dot, and no parent name stands past a root or after an
ordinary one; one dot may guard a first name that opens with a drive. -/
def InNormalForm (path : List UInt8) (rules : PathRules) : Prop :=
  ∃ names, Normal rules (parseBytes path rules).isRooted names ∧
    path.drop (parseBytes path rules).headLen =
      guardDrive rules (path.take (parseBytes path rules).headLen) names ++ [separator rules].intercalate names

/-- Folded once and for all. -/
structure Settled (path : List UInt8) (rules : PathRules) : Prop where
  idempotent : foldBytes (foldBytes path rules) rules = foldBytes path rules
  normal : InNormalForm (foldBytes path rules) rules

theorem Opening.settled {rules : PathRules} {head kept rest : List UInt8} {rooted : Bool} {fits : List UInt8 → Prop}
    (h : Opening rules head kept rooted fits) (hrest : fits rest) : Settled (head ++ rest) rules := by
  have hjoined := h.joined rest hrest
  constructor
  · rw [h.fold rest hrest, h.again _ hjoined, joined_joined]
  · obtain ⟨hlen, hrooted⟩ := h.cut _ hjoined
    have hguard (names : List (List UInt8)) : guardDrive rules kept names = [] := by simp [guardDrive, h.ne_nil]
    rw [h.fold rest hrest]
    refine ⟨foldNames rooted (rest.splitOnP (isSepByte rules)), ?_, ?_⟩
    · rw [hrooted]
      exact normal_joined rules rooted rest
    · rw [hlen, List.drop_left, List.take_left, hguard]
      rfl

/-! ### Under Windows rules -/

section Windows
variable {path : List UInt8} {kind : HeadKind} {spelling : HeadSpelling}

theorem headLen_parseBytes (h : parseWindows path = (kind, spelling)) :
    (parseBytes path .windows).headLen = headLen path kind spelling.ns := by simp [parseBytes, h]

theorem kind_parseBytes (h : parseWindows path = (kind, spelling)) :
    (parseBytes path .windows).kind = kind ∧ (parseBytes path .windows).spelling = spelling := by simp [parseBytes, h]

theorem isRooted_parseBytes (h : parseWindows path = (kind, spelling)) :
    (parseBytes path .windows).isRooted = Parsed.isRooted ⟨path, .windows, kind, spelling, 0⟩ := by
  simp [parseBytes, h, Parsed.isRooted]

theorem opening_whole (hne : path ≠ []) (h : parseWindows path = (kind, spelling))
    (hlen : headLen path kind spelling.ns = path.length)
    (hrespell : Parsed.respellHead ⟨path, .windows, kind, spelling, path.length⟩ = false) :
    Opening .windows path path (parseBytes path .windows).isRooted (· = []) := by
  have hfold := foldBytes_whole h hlen hrespell
  constructor
  · exact hne
  · rintro rest rfl
    rw [joined_nil, List.append_nil, hfold]
  · rintro rest rfl
    rw [joined_nil, List.append_nil, hfold]
  · rintro rest rfl
    rw [List.append_nil]
    exact ⟨(headLen_parseBytes h).trans hlen, rfl⟩
  · rintro rest rfl
    exact joined_nil _ _

theorem opening_slash : Opening .windows [slash] [slash] true (Bare .windows) := by
  have hfold (rest : List UInt8) (h : Bare .windows rest) : foldBytes ([slash] ++ rest) .windows = [slash] ++ joined .windows true rest :=
    fold_slash (parseWindows_slash h)
  constructor
  · exact List.cons_ne_nil _ _
  · exact hfold
  · exact hfold
  · exact fun rest h => ⟨headLen_parseBytes (parseWindows_slash h), isRooted_parseBytes (parseWindows_slash h)⟩
  · exact fun rest _ => bare_joined .windows true rest

theorem opening_backslash : Opening .windows [backslash] [backslash] true (Bare .windows) := by
  have hparse (rest : List UInt8) (h : Bare .windows rest) :
      ∃ spelling, parseWindows (backslash :: rest) = (.driveless, spelling) :=
    ⟨_, Prod.ext (parseWindows_backslash h).1 rfl⟩
  have hfold (rest : List UInt8) (h : Bare .windows rest) :
      foldBytes ([backslash] ++ rest) .windows = [backslash] ++ joined .windows true rest := by
    obtain ⟨spelling, hspelling⟩ := hparse rest h
    exact fold_backslash hspelling
  constructor
  · exact List.cons_ne_nil _ _
  · exact hfold
  · exact hfold
  · intro rest h
    obtain ⟨spelling, hspelling⟩ := hparse rest h
    exact ⟨headLen_parseBytes hspelling, isRooted_parseBytes hspelling⟩
  · exact fun rest _ => bare_joined .windows true rest

theorem opening_driveRelative {letter : UInt8} (hletter : isAsciiAlphabetic letter = true) :
    Opening .windows [letter, colon] [letter, colon] false (opens [isWinSep] · = false) := by
  have hfold (rest : List UInt8) (h : opens [isWinSep] rest = false) :
      foldBytes ([letter, colon] ++ rest) .windows = [letter, colon] ++ joined .windows false rest :=
    fold_driveRelative hletter h
  constructor
  · exact List.cons_ne_nil _ _
  · exact hfold
  · exact hfold
  · intro rest h
    have hparse := parseWindows_driveRelative hletter h
    exact ⟨headLen_parseBytes hparse, isRooted_parseBytes hparse⟩
  · exact fun rest _ => unopened_joined false rest

/-- A root that ends in a separator, read alike whatever follows it. -/
structure Root (rules : PathRules) (head kept : List UInt8) : Prop extends
    Opening rules head kept true (fun _ => True) where
  closed : ∀ h ∈ [head, kept], (∃ front b, h = front ++ [b] ∧ isSepByte rules b = true) ∧ (rules = .windows → 3 ≤ h.length)

theorem root_drive {letter sep : UInt8} (hletter : isAsciiAlphabetic letter = true) (hsep : isWinSep sep = true) :
    Root .windows [letter, colon, sep] [letter, colon, backslash] := by
  constructor
  · constructor
    · exact List.cons_ne_nil _ _
    · exact fun rest _ => fold_drive rest hletter hsep
    · exact fun rest _ => fold_drive rest hletter rfl
    · intro rest _
      have hparse := @parseWindows_driveRoot letter backslash rest hletter rfl
      refine ⟨(headLen_parseBytes hparse).trans ?_, isRooted_parseBytes hparse⟩
      simp [headLen]
    · exact fun _ _ => trivial
  · intro h hmem
    simp only [List.mem_cons, List.not_mem_nil, or_false] at hmem
    rcases hmem with rfl | rfl
    · exact ⟨⟨[letter, colon], sep, rfl, hsep⟩, fun _ => Nat.le_refl 3⟩
    · exact ⟨⟨[letter, colon], backslash, rfl, rfl⟩, fun _ => Nat.le_refl 3⟩

theorem root_unc {server share : List UInt8} {sep t a : UInt8} (h : Share server sep share [t]) (ha : isWinSep a = true)
    (ht : isWinSep t = true) : Root .windows (a :: a :: (server ++ sep :: (share ++ [t])))
      (backslash :: backslash :: (server ++ backslash :: (share ++ [backslash]))) := by
  have hshare (sep' : UInt8) (hsep' : isWinSep sep' = true) (t' : UInt8) (ht' : isWinSep t' = true) (rest : List UInt8) :
      Share server sep' share (t' :: rest) := h.retail hsep' (.inr ⟨t', rest, rfl, ht'⟩)
  have happend (a sep t : UInt8) (rest : List UInt8) : (a :: a :: (server ++ sep :: (share ++ [t]))) ++ rest =
      a :: a :: (server ++ sep :: (share ++ t :: rest)) := by simp
  have hfold (a sep t : UInt8) (ha : isWinSep a = true) (hsep : isWinSep sep = true) (ht : isWinSep t = true)
      (rest : List UInt8) : foldBytes ((a :: a :: (server ++ sep :: (share ++ [t]))) ++ rest) .windows =
        (backslash :: backslash :: (server ++ backslash :: (share ++ [backslash]))) ++ joined .windows true rest := by
    rw [happend, happend]
    exact fold_unc (hshare sep hsep t ht rest) ha ht
  constructor
  · constructor
    · exact List.cons_ne_nil _ _
    · exact fun rest _ => hfold a sep t ha h.sep ht rest
    · exact fun rest _ => hfold backslash backslash backslash rfl rfl rfl rest
    · intro rest _
      have hparse := parseWindows_unc (hshare backslash rfl backslash rfl rest) (a := backslash) rfl
      rw [← happend] at hparse
      refine ⟨(headLen_parseBytes hparse).trans ?_, isRooted_parseBytes hparse⟩
      simp [headLen]
      omega
    · exact fun _ _ => trivial
  · intro k hmem
    simp only [List.mem_cons, List.not_mem_nil, or_false] at hmem
    rcases hmem with rfl | rfl
    · refine ⟨⟨a :: a :: (server ++ sep :: share), t, by simp, ht⟩, fun _ => ?_⟩
      simp only [List.length_cons, List.length_append]
      omega
    · refine ⟨⟨backslash :: backslash :: (server ++ backslash :: share), backslash, by simp, rfl⟩, fun _ => ?_⟩
      simp only [List.length_cons, List.length_append]
      omega

theorem root_kept {head : List UInt8} {n : Namespace} {front : List UInt8} {b : UInt8}
    (hreads : ∀ rest, (parseWindows (head ++ rest)).1 = kind ∧ (parseWindows (head ++ rest)).2.ns = some n)
    (hlen : ∀ rest, headLen (head ++ rest) kind (some n) = head.length)
    (hrooted : ∀ p : Parsed, p.kind = kind → p.isRooted = true)
    (hhead : head = front ++ [b]) (hb : isWinSep b = true) (hlong : 3 ≤ head.length) : Root .windows head head := by
  have hne : head ≠ [] := by simp [hhead]
  have hparse (rest : List UInt8) : ∃ spelling, parseWindows (head ++ rest) = (kind, spelling) ∧ spelling.ns = some n :=
    ⟨_, Prod.ext (hreads rest).1 rfl, (hreads rest).2⟩
  have hfold (rest : List UInt8) : foldBytes (head ++ rest) .windows = head ++ joined .windows true rest := by
    obtain ⟨spelling', hspelling, hns⟩ := hparse rest
    have hrespell : Parsed.respellHead ⟨head ++ rest, .windows, kind, spelling', head.length⟩ = false := by
      show (spelling'.ns.isNone && _) = false
      rw [hns]
      rfl
    rw [foldBytes_head head rest hspelling rfl (by rw [hns]; exact hlen rest) hne, hrespell, if_neg Bool.false_ne_true]
    have hroot : Parsed.isRooted ⟨head ++ rest, .windows, kind, spelling', head.length⟩ = true := hrooted _ rfl
    rw [hroot]
  constructor
  · constructor
    · exact hne
    · exact fun rest _ => hfold rest
    · exact fun rest _ => hfold rest
    · intro rest _
      obtain ⟨spelling', hspelling, hns⟩ := hparse rest
      refine ⟨?_, hrooted _ (kind_parseBytes hspelling).1⟩
      rw [headLen_parseBytes hspelling, hns]
      exact hlen rest
    · exact fun _ _ => trivial
  · intro h hmem
    simp only [List.mem_cons, List.not_mem_nil, or_false, or_self] at hmem
    subst hmem
    exact ⟨⟨front, b, hhead, hb⟩, fun _ => hlong⟩

/-- A verbatim path is kept whole, or folds past a root that is kept as written. -/
theorem verbatim_cases {a b c : UInt8} {rest : List UInt8} (ha : isWinSep a = true) (hb : isWinSep b = true)
    (hc : isWinSep c = true) :
    Opening .windows (a :: b :: question :: c :: rest) (a :: b :: question :: c :: rest)
        (parseBytes (a :: b :: question :: c :: rest) .windows).isRooted (· = []) ∨
      ∃ head tail, a :: b :: question :: c :: rest = head ++ tail ∧ Root .windows head head := by
  obtain ⟨hkind, hns⟩ := parseWindows_verbatim ha hb hc rest
  cases hparse : parseWindows (a :: b :: question :: c :: rest) with
  | mk kind spelling =>
  rw [hparse] at hkind hns
  simp only at hkind hns
  have hwhole (hlen : headLen (a :: b :: question :: c :: rest) kind spelling.ns = (a :: b :: question :: c :: rest).length) :
      Opening .windows (a :: b :: question :: c :: rest) (a :: b :: question :: c :: rest)
        (parseBytes (a :: b :: question :: c :: rest) .windows).isRooted (· = []) := by
    apply opening_whole (List.cons_ne_nil _ _) hparse hlen
    show (spelling.ns.isNone && _) = false
    rw [hns]
    rfl
  cases hexact : exactPrefix [a, b, question, c] with
  | true =>
    left
    apply hwhole
    rw [hkind, hns, hexact]
    exact headLen_verbatim_exact _
  | false =>
    rcases @verbatimKind_cases [a, b, question, c] rfl rest with h | h | h
    · left
      apply hwhole
      rw [hkind.trans h]
      rfl
    · obtain ⟨letter, sep, tail, rfl, hletter, hsep⟩ := h
      have hdrive (rest : List UInt8) := @verbatimKind_drive [a, b, question, c] _ _ rfl hletter hsep rest
      right
      refine ⟨[a, b, question, c, letter, colon, sep], tail, rfl, ?_⟩
      apply @root_kept (.drive letter [a, b, question, c, letter, colon]) _ (.verbatim false) [a, b, question, c, letter, colon] sep
      · intro rest
        obtain ⟨hkind', hns'⟩ := parseWindows_verbatim ha hb hc (letter :: colon :: sep :: rest)
        exact ⟨hkind'.trans (hdrive rest), by rw [← hexact]; exact hns'⟩
      · intro rest
        simp [headLen, Namespace.isExact]
      · intro p hp
        simp [Parsed.isRooted, hp]
      · rfl
      · exact hsep
      · exact Nat.le_add_left 3 4
    · obtain ⟨unc, server, sep, share, tail, rfl, hlen, hunc, hshare⟩ := h
      have hk := hkind.trans (@verbatimKind_unc [a, b, question, c] _ _ _ _ _ rfl hlen hunc hshare)
      rcases hshare.tail with rfl | ⟨t, tail, rfl, ht⟩
      · left
        apply hwhole
        rw [hk, hns]
        simp [headLen, Namespace.isExact, hexact]
      · right
        refine ⟨[a, b, question, c] ++ (unc ++ (server ++ sep :: (share ++ [t]))), tail, by simp, ?_⟩
        apply @root_kept (.unc ([a, b, question, c] ++ (unc ++ (server ++ sep :: share)))) _ (.verbatim false)
          ([a, b, question, c] ++ (unc ++ (server ++ sep :: share))) t
        · intro rest
          obtain ⟨hkind', hns'⟩ := parseWindows_verbatim ha hb hc (unc ++ (server ++ sep :: (share ++ t :: rest)))
          have hshare' : Share server sep share (t :: rest) := hshare.retail hshare.sep (.inr ⟨t, rest, rfl, ht⟩)
          have hk' := @verbatimKind_unc [a, b, question, c] _ _ _ _ _ rfl hlen hunc hshare'
          have happend : [a, b, question, c] ++ (unc ++ (server ++ sep :: (share ++ [t]))) ++ rest =
              a :: b :: question :: c :: (unc ++ (server ++ sep :: (share ++ t :: rest))) := by simp
          rw [happend]
          exact ⟨hkind'.trans hk', by rw [← hexact]; exact hns'⟩
        · intro rest
          simp [headLen, Namespace.isExact]
          omega
        · intro p hp
          simp [Parsed.isRooted, hp]
        · simp
        · exact ht
        · simp only [List.length_append, List.length_cons, List.length_nil]
          omega

theorem opening_share {a sep : UInt8} {server share : List UInt8} (ha : isWinSep a = true)
    (h : Share server sep share []) : Opening .windows (a :: a :: (server ++ sep :: share))
      (backslash :: backslash :: (server ++ backslash :: share)) true (· = []) := by
  have hkept : Share server backslash share [] := h.retail rfl (.inl rfl)
  constructor
  · exact List.cons_ne_nil _ _
  · rintro rest rfl
    rw [List.append_nil, joined_nil, List.append_nil]
    exact fold_share h ha
  · rintro rest rfl
    rw [List.append_nil, joined_nil, List.append_nil]
    exact fold_share hkept rfl
  · rintro rest rfl
    have hparse := parseWindows_unc hkept (a := backslash) rfl
    rw [List.append_nil] at hparse ⊢
    refine ⟨(headLen_parseBytes hparse).trans ?_, isRooted_parseBytes hparse⟩
    simp [headLen]
  · rintro rest rfl
    exact joined_nil _ _

theorem settled_relative (hbare : Bare .windows path) (hdrive : driveShaped path = false) : Settled path .windows := by
  obtain ⟨names, hnames⟩ : ∃ names, foldNames false (path.splitOnP (isSepByte .windows)) = names := ⟨_, rfl⟩
  have hsolid : ∀ n ∈ names, IsName .windows false n := hnames ▸ isName_foldNames fun _ => solid_of_mem_splitOnP
  have hnormal : Normal .windows false names := hnames ▸ normal_joined .windows false path
  have hjoined : joined .windows false path = [separator .windows].intercalate names := by rw [joined, hnames]
  have hfold := fold_relative (parseWindows_relative hbare hdrive)
  rw [hnames, hjoined] at hfold
  have hparse := parseWindows_guarded hsolid
  have hagain : foldNames false ((guardDrive .windows [] names ++ [separator .windows].intercalate names).splitOnP
      (isSepByte .windows)) = names := by
    have hplain : foldNames false (([separator .windows].intercalate names).splitOnP (isSepByte .windows)) = names := by
      rw [← hjoined, foldNames_joined, hnames]
    have hdot : ∀ b ∈ [dot], isSepByte .windows b = false := by
      intro b hb
      rw [List.mem_singleton.mp hb]
      rfl
    unfold guardDrive
    split
    · have hsplit : ([dot, backslash] ++ [separator .windows].intercalate names).splitOnP (isSepByte .windows) =
          here :: ([separator .windows].intercalate names).splitOnP (isSepByte .windows) :=
        List.splitOnP_append_cons_of_forall_mem hdot backslash rfl _
      rw [hsplit, foldNames, List.foldl_cons, show foldName false [] here = [] from rfl]
      exact hplain
    · exact hplain
  constructor
  · rw [hfold, fold_relative hparse, hagain, joined, hagain]
  · rw [hfold]
    refine ⟨names, ?_, ?_⟩
    · rw [isRooted_parseBytes hparse]
      exact hnormal
    · rw [headLen_parseBytes hparse]
      rfl

theorem settled_windows (path : List UInt8) : Settled path .windows := by
  have hnil (head : List UInt8) : Settled (head ++ []) .windows → Settled head .windows := by
    rw [List.append_nil]
    exact id
  cases shape path with
  | relative hbare hdrive => exact settled_relative hbare hdrive
  | slash hbare => exact opening_slash.settled hbare
  | backslash hbare => exact opening_backslash.settled hbare
  | drive hletter hsep => exact (root_drive hletter hsep).settled trivial
  | driveRelative hletter htail => exact (opening_driveRelative hletter).settled htail
  | @unc a sep server share tail ha h =>
    rcases h.tail with rfl | ⟨t, tail, rfl, ht⟩
    · rw [List.append_nil]
      exact hnil _ ((opening_share ha h).settled rfl)
    · have hroot := root_unc (h.retail h.sep (.inr ⟨t, [], rfl, ht⟩)) ha ht
      have hsettled : Settled ((a :: a :: (server ++ sep :: (share ++ [t]))) ++ tail) .windows := hroot.settled trivial
      rwa [show (a :: a :: (server ++ sep :: (share ++ [t]))) ++ tail = a :: a :: (server ++ sep :: (share ++ t :: tail)) by simp]
        at hsettled
  | verbatim ha hb hc =>
    rcases verbatim_cases ha hb hc with h | ⟨head, tail, heq, hroot⟩
    · exact hnil _ (h.settled rfl)
    · rw [heq]
      exact hroot.settled trivial
  | device h =>
    have hne : path ≠ [] := by
      rintro rfl
      cases h
    exact hnil _ ((opening_whole hne h rfl (by simp [Parsed.respellHead])).settled rfl)
  | malformed h =>
    have hne : path ≠ [] := by
      rintro rfl
      cases h
    exact hnil _ ((opening_whole hne h rfl (by simp [Parsed.respellHead])).settled rfl)

end Windows

/-! ### Under POSIX rules -/

theorem root_posix : Root .posix [slash] [slash] := by
  constructor
  · constructor
    · exact List.cons_ne_nil _ _
    · exact fun rest _ => fold_posix rest
    · exact fun rest _ => fold_posix rest
    · exact fun rest _ => ⟨rfl, rfl⟩
    · exact fun _ _ => trivial
  · intro h hmem
    simp only [List.mem_cons, List.not_mem_nil, or_false, or_self] at hmem
    subst hmem
    exact ⟨⟨[], slash, rfl, rfl⟩, nofun⟩

theorem settled_posix (path : List UInt8) : Settled path .posix := by
  cases hopens : opens [(· == slash)] path with
  | true =>
    obtain ⟨b, tail, rfl, hb, -⟩ := exists_of_opens_cons hopens
    rw [beq_iff_eq.mp hb]
    exact root_posix.settled trivial
  | false =>
    have hfold := fold_posix_relative hopens
    have hafter := unopened_posix false path
    constructor
    · rw [hfold, fold_posix_relative hafter, joined_joined]
    · rw [hfold]
      refine ⟨foldNames false (path.splitOnP (isSepByte .posix)), ?_, ?_⟩
      · have hrooted : (parseBytes (joined .posix false path) .posix).isRooted = false := by
          simp [parseBytes, parsePosix, hafter, Parsed.isRooted]
        rw [hrooted]
        exact normal_joined .posix false path
      · have hlen : (parseBytes (joined .posix false path) .posix).headLen = 0 := by
          simp [parseBytes, parsePosix, hafter, headLen]
        rw [hlen]
        simp only [guardDrive, reduceCtorEq, false_and, if_false, List.drop_zero, List.nil_append]
        rfl

theorem settled (path : List UInt8) (rules : PathRules) : Settled path rules := by
  cases rules with
  | posix => exact settled_posix path
  | windows => exact settled_windows path

/-! ## What is joined -/

section Joins
variable {rules : PathRules}

theorem subNames_solid {sub : List UInt8} {n : List UInt8} (h : n ∈ subNames sub rules) : n ≠ [] ∧ Solid rules n := by
  obtain ⟨hmem, hne⟩ := List.mem_filter.mp h
  exact ⟨by simpa using hne, solid_of_mem_splitOnP hmem⟩

theorem foldl_push_closed (names : List (List UInt8)) (tail : List UInt8) :
    (names.foldl (push rules) (tail, false)).1 = tail ++ names.flatMap (separator rules :: ·) := by
  induction names generalizing tail with
  | nil => simp
  | cons n names ih =>
    rw [List.foldl_cons, push, if_neg Bool.false_ne_true, ih]
    simp

theorem flatMap_separator {names : List (List UInt8)} (h : names ≠ []) :
    names.flatMap (separator rules :: ·) = separator rules :: [separator rules].intercalate names := by
  induction names with
  | nil => exact absurd rfl h
  | cons n names ih =>
    cases names with
    | nil => simp [List.intercalate]
    | cons m names =>
      rw [List.flatMap_cons, ih (List.cons_ne_nil _ _)]
      simp [List.intercalate]

/-- What is appended: the names joined, and a separator before them where one is due. -/
def extension (rules : PathRules) (names : List (List UInt8)) (isOpen : Bool) : List UInt8 :=
  if names = [] then [] else if isOpen then [separator rules].intercalate names
    else separator rules :: [separator rules].intercalate names

theorem foldl_push (names : List (List UInt8)) (isOpen : Bool) :
    (names.foldl (push rules) ([], isOpen)).1 = extension rules names isOpen := by
  cases names with
  | nil => rfl
  | cons n names =>
    rw [extension, if_neg (List.cons_ne_nil _ _)]
    cases isOpen with
    | false => rw [foldl_push_closed, flatMap_separator (List.cons_ne_nil _ _)]; rfl
    | true =>
      rw [List.foldl_cons, push, if_pos rfl, foldl_push_closed, if_pos rfl, List.nil_append]
      cases names with
      | nil => simp [List.intercalate]
      | cons m names =>
        rw [flatMap_separator (List.cons_ne_nil _ _)]
        simp [List.intercalate]

/-- A subpath that keeps to its base. -/
def Accepted (sub : List UInt8) (rules : PathRules) : Prop :=
  ¬(rules = .windows ∧ (absoluteUnder sub .windows = true ∨ (subNames sub rules).any hasDrive = true))

theorem joinUnder_eq_ok {base sub path : List UInt8} : joinUnder base sub rules = .ok path ↔
    Accepted sub rules ∧ path = base ++ extension rules (subNames sub rules) (isOpen rules base) := by
  unfold joinUnder appended Accepted
  simp only [foldl_push]
  split
  · next h =>
    constructor
    · intro heq
      cases heq
    · rintro ⟨haccepted, -⟩
      exact absurd h haccepted
  · next h =>
    simp only [h, not_false_eq_true, true_and, bind, Except.bind, pure, Except.pure, Except.ok.injEq]
    exact eq_comm

theorem isOpen_append {front : List UInt8} {b : UInt8} (h : rules = .windows → 3 ≤ (front ++ [b]).length) :
    isOpen rules (front ++ [b]) = isSepByte rules b := by
  match front with
  | [] => rfl
  | [d] =>
    have hposix : rules ≠ .windows := fun hw => absurd (h hw) (by simp)
    simp [isOpen, hposix]
  | d :: e :: front =>
    have hlast : (e :: (front ++ [b])).getLast? = some b := by
      rw [← List.cons_append, List.getLast?_concat]
    simp [isOpen, hlast]

theorem foldNames_append_append (rooted : Bool) (xs ys : List (List UInt8)) :
    foldNames rooted (xs ++ ys) = ys.foldl (foldName rooted) (foldNames rooted xs) := List.foldl_append

theorem foldNames_extension {names : List (List UInt8)} (hnames : ∀ n ∈ names, n ≠ [] ∧ Solid rules n) {tail : List UInt8}
    {o : Bool} (hopen : o = true ↔ tail = [] ∨ ∃ front b, tail = front ++ [b] ∧ isSepByte rules b = true) (rooted : Bool) :
    foldNames rooted ((tail ++ extension rules names o).splitOnP (isSepByte rules)) =
      names.foldl (foldName rooted) (foldNames rooted (tail.splitOnP (isSepByte rules))) := by
  have hsolid : ∀ n ∈ names, Solid rules n := fun n hn => (hnames n hn).2
  have hcut (front : List UInt8) {b : UInt8} (hb : isSepByte rules b = true) (rest : List UInt8) :
      foldNames rooted ((front ++ b :: rest).splitOnP (isSepByte rules)) =
        (rest.splitOnP (isSepByte rules)).foldl (foldName rooted) (foldNames rooted (front.splitOnP (isSepByte rules))) := by
    rw [List.splitOnP_append_cons _ _ hb, foldNames_append_append]
  by_cases hempty : names = []
  · simp [extension, hempty]
  · cases o with
    | false =>
      rw [extension, if_neg hempty, if_neg Bool.false_ne_true, hcut tail (isSepByte_separator rules), foldl_split_join hsolid]
    | true =>
      rw [extension, if_neg hempty, if_pos rfl]
      rcases hopen.mp rfl with rfl | ⟨front, b, rfl, hb⟩
      · rw [List.nil_append, foldNames, foldl_split_join hsolid]
        simp [foldNames, foldName_nil]
      · rw [List.append_assoc, List.singleton_append, hcut front hb, foldl_split_join hsolid, hcut front hb]
        simp [foldName_nil]

/-- Past a root, a separator is due unless the tail ends in one or there is none. -/
theorem isOpen_root {head : List UInt8} (hclosed : (∃ front b, head = front ++ [b] ∧ isSepByte rules b = true) ∧
    (rules = .windows → 3 ≤ head.length)) (tail : List UInt8) :
    isOpen rules (head ++ tail) = true ↔ tail = [] ∨ ∃ front b, tail = front ++ [b] ∧ isSepByte rules b = true := by
  obtain ⟨⟨front, b, rfl, hb⟩, hlong⟩ := hclosed
  cases tail using List.reverseRecOn with
  | nil =>
    rw [List.append_nil, isOpen_append hlong]
    simp [hb]
  | append_singleton tail c =>
    have hlong' : rules = .windows → 3 ≤ ((front ++ [b] ++ tail) ++ [c]).length := by
      intro hw
      have := hlong hw
      simp only [List.length_append] at this ⊢
      omega
    rw [← List.append_assoc, isOpen_append hlong']
    constructor
    · exact fun hc => .inr ⟨tail, c, rfl, hc⟩
    · rintro (h | ⟨front', c', heq, hc'⟩)
      · simp at h
      · obtain ⟨-, he⟩ := List.append_inj' heq rfl
        rw [List.singleton_inj.mp he]
        exact hc'

theorem Root.fold_join {head kept : List UInt8} (h : Root rules head kept) {names : List (List UInt8)}
    (hnames : ∀ n ∈ names, n ≠ [] ∧ Solid rules n) (tail : List UInt8) :
    foldBytes (head ++ tail ++ extension rules names (isOpen rules (head ++ tail))) rules = kept ++
      [separator rules].intercalate (names.foldl (foldName true) (foldNames true (tail.splitOnP (isSepByte rules)))) ∧
    foldBytes (kept ++ tail ++ extension rules names (isOpen rules (kept ++ tail))) rules = kept ++
      [separator rules].intercalate (names.foldl (foldName true) (foldNames true (tail.splitOnP (isSepByte rules)))) := by
  have hhead := isOpen_root (h.closed head (by simp)) tail
  have hkept := isOpen_root (h.closed kept (by simp)) tail
  rw [List.append_assoc, List.append_assoc, h.fold _ trivial, h.again _ trivial]
  simp only [joined, foldNames_extension hnames hhead, foldNames_extension hnames hkept, and_self]

theorem Root.join {head kept : List UInt8} (h : Root rules head kept) {names : List (List UInt8)}
    (hnames : ∀ n ∈ names, n ≠ [] ∧ Solid rules n) (tail : List UInt8) :
    foldBytes (foldBytes (head ++ tail) rules ++ extension rules names (isOpen rules (foldBytes (head ++ tail) rules))) rules =
      foldBytes (head ++ tail ++ extension rules names (isOpen rules (head ++ tail))) rules := by
  rw [(h.fold_join hnames tail).1, h.fold _ trivial, (h.fold_join hnames _).2, foldNames_joined]

end Joins

/-! ## Working directories -/

def Extends (base ext : List UInt8) : Prop := ext = [] ∨ (∃ front b, base = front ++ [b] ∧ isWinSep b = true) ∨
  ∃ b more, ext = b :: more ∧ isWinSep b = true

theorem Closed.extend {server share tail ext front : List UInt8} {sep : UInt8} (h : Share server sep share tail)
    (hext : Extends (front ++ (server ++ sep :: (share ++ tail))) ext) : Closed (tail ++ ext) := by
  rcases h.tail with rfl | ⟨t, tail, rfl, ht⟩
  · rw [List.nil_append]
    rcases hext with rfl | ⟨front', b, heq, hb⟩ | h
    · exact .inl rfl
    · -- the base ends in its share, which holds no separator
      have hshare := h.named.2.2
      obtain ⟨share', c, rfl⟩ : ∃ share' c, share = share' ++ [c] := by
        cases share using List.reverseRecOn with
        | nil => simp [named] at hshare
        | append_singleton share' c => exact ⟨share', c, rfl⟩
      have hc : isWinSep c = false := h.share c (by simp)
      have hsplit : (front ++ (server ++ sep :: share')) ++ [c] = front' ++ [b] := by
        rw [← heq]
        simp
      rw [List.singleton_inj.mp (List.append_inj' hsplit rfl).2, hb] at hc
      cases hc
    · exact .inr h
  · exact .inr ⟨t, tail ++ ext, rfl, ht⟩

theorem volume_of_workingDirectory {base : List UInt8} {kind : HeadKind} {spelling : HeadSpelling}
    (h : (parseBytes base .windows).isWorkingDirectory = true) (hparse : parseWindows base = (kind, spelling)) :
    (∃ letter volume, kind = .drive letter volume) ∨ ∃ volume, kind = .unc volume := by
  simp only [parseBytes, hparse] at h
  cases kind with
  | drive letter volume => exact .inl ⟨letter, volume, rfl⟩
  | unc volume => exact .inr ⟨volume, rfl⟩
  | _ => cases h

/-- How a working directory opens under Windows rules. -/
inductive VolumeShape : List UInt8 → Prop
  | drive {letter sep : UInt8} {tail : List UInt8} (hletter : isAsciiAlphabetic letter = true)
      (hsep : isWinSep sep = true) : VolumeShape (letter :: colon :: sep :: tail)
  | unc {a sep : UInt8} {server share tail : List UInt8} (ha : isWinSep a = true) (h : Share server sep share tail) :
      VolumeShape (a :: a :: (server ++ sep :: (share ++ tail)))
  | verbatim {a b c : UInt8} {rest : List UInt8} (ha : isWinSep a = true) (hb : isWinSep b = true)
      (hc : isWinSep c = true) : VolumeShape (a :: b :: question :: c :: rest)

theorem volumeShape {base : List UInt8} (h : (parseBytes base .windows).isWorkingDirectory = true) : VolumeShape base := by
  have hnot {kind : HeadKind} {spelling : HeadSpelling} (hparse : parseWindows base = (kind, spelling))
      (hkind : (∀ letter volume, kind ≠ .drive letter volume) ∧ ∀ volume, kind ≠ .unc volume) : VolumeShape base := by
    rcases volume_of_workingDirectory h hparse with ⟨letter, volume, he⟩ | ⟨volume, he⟩
    · exact (hkind.1 letter volume he).elim
    · exact (hkind.2 volume he).elim
  cases shape base with
  | relative hbare hdrive => exact hnot (parseWindows_relative hbare hdrive) ⟨nofun, nofun⟩
  | slash hbare => exact hnot (parseWindows_slash hbare) ⟨nofun, nofun⟩
  | backslash hbare => exact hnot (Prod.ext (parseWindows_backslash hbare).1 rfl) ⟨nofun, nofun⟩
  | driveRelative hletter htail => exact hnot (parseWindows_driveRelative hletter htail) ⟨nofun, nofun⟩
  | device hparse => exact hnot hparse ⟨nofun, nofun⟩
  | malformed hparse => exact hnot hparse ⟨nofun, nofun⟩
  | drive hletter hsep => exact .drive hletter hsep
  | unc ha hshare => exact .unc ha hshare
  | verbatim ha hb hc => exact .verbatim ha hb hc

/-- A working directory and what is appended to it open with the same head. -/
theorem parse_extended {base ext : List UInt8} (h : (parseBytes base .windows).isWorkingDirectory = true)
    (hext : Extends base ext) : (parseBytes (base ++ ext) .windows).kind = (parseBytes base .windows).kind ∧
      (parseBytes (base ++ ext) .windows).spelling.ns = (parseBytes base .windows).spelling.ns := by
  have hsame (kind : HeadKind) (ns : Option Namespace) (hbase : (parseWindows base).1 = kind ∧ (parseWindows base).2.ns = ns)
      (hjoin : (parseWindows (base ++ ext)).1 = kind ∧ (parseWindows (base ++ ext)).2.ns = ns) :
      (parseBytes (base ++ ext) .windows).kind = (parseBytes base .windows).kind ∧
        (parseBytes (base ++ ext) .windows).spelling.ns = (parseBytes base .windows).spelling.ns := by
    simp only [parseBytes]
    rw [hbase.1, hbase.2, hjoin.1, hjoin.2]
    exact ⟨rfl, rfl⟩
  cases volumeShape h with
  | @drive letter sep tail hletter hsep =>
    have hparse (rest : List UInt8) := parseWindows_driveRoot rest hletter hsep
    apply hsame (.drive letter [letter, colon]) none
    · rw [hparse tail]
      exact ⟨rfl, rfl⟩
    · rw [show (letter :: colon :: sep :: tail) ++ ext = letter :: colon :: sep :: (tail ++ ext) from rfl, hparse]
      exact ⟨rfl, rfl⟩
  | @unc a sep server share tail ha hshare =>
    have hclosed := hshare.retail hshare.sep (@Closed.extend _ _ _ _ [a, a] _ hshare hext)
    have happend : (a :: a :: (server ++ sep :: (share ++ tail))) ++ ext = a :: a :: (server ++ sep :: (share ++ (tail ++ ext))) := by
      simp
    apply hsame (.unc (a :: a :: (server ++ sep :: share))) none
    · rw [parseWindows_unc hshare ha]
      exact ⟨rfl, rfl⟩
    · rw [happend, parseWindows_unc hclosed ha]
      exact ⟨rfl, rfl⟩
  | @verbatim a b c rest ha hb hc =>
    obtain ⟨hkind, hns⟩ := parseWindows_verbatim ha hb hc rest
    obtain ⟨hkind', hns'⟩ := parseWindows_verbatim ha hb hc (rest ++ ext)
    have hverbatim (heq : verbatimKind ([a, b, question, c] ++ (rest ++ ext)) = verbatimKind ([a, b, question, c] ++ rest)) :=
      hsame _ _ ⟨hkind, hns⟩ ⟨hkind'.trans heq, hns'⟩
    apply hverbatim
    rcases @verbatimKind_cases [a, b, question, c] rfl rest with hmalformed | hdrive | hunc
    · rcases volume_of_workingDirectory h (Prod.ext (hkind.trans hmalformed) rfl) with ⟨_, _, he⟩ | ⟨_, he⟩
      · cases he
      · cases he
    · obtain ⟨letter, sep, tail, rfl, hletter, hsep⟩ := hdrive
      have hkinds (rest : List UInt8) := @verbatimKind_drive [a, b, question, c] _ _ rfl hletter hsep rest
      exact (hkinds (tail ++ ext)).trans (hkinds tail).symm
    · obtain ⟨unc, server, sep, share, tail, rfl, hlen, hunc, hshare⟩ := hunc
      have hbase : Extends ([a, b, question, c] ++ unc ++ (server ++ sep :: (share ++ tail))) ext := by
        rw [List.append_assoc]
        exact hext
      have hclosed := hshare.retail hshare.sep (Closed.extend hshare hbase)
      have happend : unc ++ (server ++ sep :: (share ++ tail)) ++ ext = unc ++ (server ++ sep :: (share ++ (tail ++ ext))) := by
        simp
      rw [happend, @verbatimKind_unc [a, b, question, c] _ _ _ _ _ rfl hlen hunc hclosed,
        @verbatimKind_unc [a, b, question, c] _ _ _ _ _ rfl hlen hunc hshare]

/-- No bare drive is a working directory, so what is open there ends in a separator. -/
theorem extends_extension {base : List UInt8} (h : (parseBytes base .windows).isWorkingDirectory = true)
    (names : List (List UInt8)) : Extends base (extension .windows names (isOpen .windows base)) := by
  unfold extension
  split
  · exact .inl rfl
  cases hopen : isOpen .windows base with
  | false => exact .inr (.inr ⟨_, _, rfl, rfl⟩)
  | true =>
    refine .inr (.inl ?_)
    match base with
    | [] => cases h
    | [b] => exact ⟨[], b, rfl, hopen⟩
    | [d, c] =>
      by_cases hcolon : c = colon
      · subst hcolon
        have hletter : isAsciiAlphabetic d = true := hopen
        rcases volume_of_workingDirectory h (parseWindows_driveRelative hletter rfl) with ⟨_, _, he⟩ | ⟨_, he⟩
        · cases he
        · cases he
      · have hsep : isSepByte .windows c = true := by simpa [isOpen, hcolon] using hopen
        exact ⟨[d], c, rfl, hsep⟩
    | d :: e :: f :: rest =>
      obtain ⟨front, b, heq⟩ : ∃ front b, d :: e :: f :: rest = front ++ [b] := by
        cases hrest : (d :: e :: f :: rest) using List.reverseRecOn with
        | nil => cases hrest
        | append_singleton front b => exact ⟨front, b, rfl⟩
      refine ⟨front, b, heq, ?_⟩
      rw [heq, isOpen_append (fun _ => by rw [← heq]; simp)] at hopen
      exact hopen

theorem Share.not_open {server share tail front : List UInt8} {sep : UInt8} (h : Share server sep share tail)
    (hfront : 2 ≤ front.length) : isOpen .windows (front ++ share) = false := by
  have hshare := h.named.2.2
  cases share using List.reverseRecOn with
  | nil => simp [Lex.named] at hshare
  | append_singleton share c =>
    rw [← List.append_assoc, isOpen_append]
    · exact h.share c (by simp)
    · intro
      simp only [List.length_append, List.length_singleton]
      omega

theorem join_share {a sep : UInt8} {server share : List UInt8} (ha : isWinSep a = true) (h : Share server sep share [])
    {names : List (List UInt8)} :
    foldBytes (foldBytes (a :: a :: (server ++ sep :: share)) .windows ++ extension .windows names
        (isOpen .windows (foldBytes (a :: a :: (server ++ sep :: share)) .windows))) .windows =
      foldBytes ((a :: a :: (server ++ sep :: share)) ++ extension .windows names
        (isOpen .windows (a :: a :: (server ++ sep :: share)))) .windows := by
  have hopen (a sep : UInt8) : isOpen .windows (a :: a :: (server ++ sep :: share)) = false := by
    have hclosed := @Share.not_open _ _ _ (a :: a :: (server ++ [sep])) _ h (by simp)
    simpa using hclosed
  by_cases hempty : names = []
  · simp only [extension, hempty, if_true, List.append_nil]
    exact (settled _ .windows).idempotent
  · rw [fold_share h ha, hopen, hopen, extension, if_neg hempty, if_neg Bool.false_ne_true]
    have hroot := root_unc (h.retail h.sep (.inr ⟨backslash, [], rfl, rfl⟩)) ha (t := backslash) rfl
    have hfold := hroot.fold ([separator .windows].intercalate names) trivial
    have hagain := hroot.again ([separator .windows].intercalate names) trivial
    have happend (a sep : UInt8) : (a :: a :: (server ++ sep :: share)) ++ separator .windows ::
        [separator .windows].intercalate names = (a :: a :: (server ++ sep :: (share ++ [backslash]))) ++
          [separator .windows].intercalate names := by simp [separator]
    rw [happend, happend, hfold, hagain]

theorem fold_join_windows {base : List UInt8} (h : (parseBytes base .windows).isWorkingDirectory = true)
    {names : List (List UInt8)} (hnames : ∀ n ∈ names, n ≠ [] ∧ Solid .windows n) :
    foldBytes (foldBytes base .windows ++ extension .windows names (isOpen .windows (foldBytes base .windows))) .windows =
      foldBytes (base ++ extension .windows names (isOpen .windows base)) .windows := by
  cases volumeShape h with
  | @drive letter sep tail hletter hsep => exact (root_drive hletter hsep).join hnames tail
  | @unc a sep server share tail ha hshare =>
    rcases hshare.tail with rfl | ⟨t, tail, rfl, ht⟩
    · rw [List.append_nil]
      exact join_share ha hshare
    · have hroot := root_unc (hshare.retail hshare.sep (.inr ⟨t, [], rfl, ht⟩)) ha ht
      have hjoin := hroot.join hnames tail
      rwa [show (a :: a :: (server ++ sep :: (share ++ [t]))) ++ tail = a :: a :: (server ++ sep :: (share ++ t :: tail)) by simp]
        at hjoin
  | @verbatim a b c rest ha hb hc =>
    rcases verbatim_cases ha hb hc with hwhole | ⟨head, tail, heq, hroot⟩
    · have hfold := hwhole.fold [] rfl
      rw [List.append_nil, joined_nil, List.append_nil] at hfold
      rw [hfold]
    · rw [heq]
      exact hroot.join hnames tail

theorem slash_of_workingDirectory {base : List UInt8} (h : (parseBytes base .posix).isWorkingDirectory = true) :
    ∃ tail, base = slash :: tail := by
  cases hopens : opens [(· == slash)] base with
  | true =>
    obtain ⟨b, tail, rfl, hb, -⟩ := exists_of_opens_cons hopens
    exact ⟨tail, by rw [beq_iff_eq.mp hb]⟩
  | false => simp [parseBytes, parsePosix, hopens, Parsed.isWorkingDirectory] at h

theorem fold_join {base : List UInt8} {rules : PathRules} (h : (parseBytes base rules).isWorkingDirectory = true)
    {names : List (List UInt8)} (hnames : ∀ n ∈ names, n ≠ [] ∧ Solid rules n) :
    foldBytes (foldBytes base rules ++ extension rules names (isOpen rules (foldBytes base rules))) rules =
      foldBytes (base ++ extension rules names (isOpen rules base)) rules := by
  cases rules with
  | windows => exact fold_join_windows h hnames
  | posix =>
    obtain ⟨tail, rfl⟩ := slash_of_workingDirectory h
    exact root_posix.join hnames tail

/-- A join stays on the volume of its base. -/
theorem keeps_join {base : List UInt8} {rules : PathRules} (h : (parseBytes base rules).isWorkingDirectory = true)
    (names : List (List UInt8)) : KeepsHead (parseBytes base rules)
      (parseBytes (foldBytes (base ++ extension rules names (isOpen rules base)) rules) rules) := by
  cases rules with
  | posix =>
    obtain ⟨tail, rfl⟩ := slash_of_workingDirectory h
    exact ⟨(keeps_posix _).kind, nofun⟩
  | windows =>
    obtain ⟨hkind, hns⟩ := parse_extended h (extends_extension h names)
    have hcovered : ¬Uncovers (base ++ extension .windows names (isOpen .windows base)) := by
      apply not_uncovers
      intro tail htail hbare
      have hdriveless : (parseBytes base .windows).kind = .driveless := by
        rw [← hkind, htail]
        exact (parseWindows_backslash hbare).1
      rcases volume_of_workingDirectory h (Prod.ext hdriveless rfl) with ⟨_, _, he⟩ | ⟨_, he⟩
      · cases he
      · cases he
    obtain ⟨hkept, hkeptNs⟩ := (keeps_windows _).mpr hcovered
    constructor
    · rw [hkept, hkind]
    · intro ns heq
      rw [← hns]
      exact hkeptNs ns heq

/-- Folding twice is folding once, and leaves a normal form; and what a join onto a working
directory folds to is on its volume, whether or not the directory was folded first. -/
theorem fold_normal_form (rules : PathRules) :
    (∀ path, foldBytes (foldBytes path rules) rules = foldBytes path rules ∧ InNormalForm (foldBytes path rules) rules) ∧
    ∀ base sub path, (parseBytes base rules).isWorkingDirectory = true → joinUnder base sub rules = .ok path →
      ∃ path', joinUnder (foldBytes base rules) sub rules = .ok path' ∧ foldBytes path' rules = foldBytes path rules ∧
        KeepsHead (parseBytes base rules) (parseBytes (foldBytes path rules) rules) := by
  constructor
  · intro path
    exact ⟨(settled path rules).idempotent, (settled path rules).normal⟩
  · intro base sub path hbase hjoin
    obtain ⟨haccepted, rfl⟩ := joinUnder_eq_ok.mp hjoin
    exact ⟨_, joinUnder_eq_ok.mpr ⟨haccepted, rfl⟩, fold_join hbase fun _ => subNames_solid, keeps_join hbase _⟩

/-- `C:\a\..` joined with `b\.`, folded before and after. -/
theorem fold_of_drive_joined :
    joinUnder [67, 58, 92, 97, 92, 46, 46] [98, 92, 46] .windows = .ok [67, 58, 92, 97, 92, 46, 46, 92, 98, 92, 46] ∧
    ∃ path', joinUnder (foldBytes [67, 58, 92, 97, 92, 46, 46] .windows) [98, 92, 46] .windows = .ok path' ∧
      foldBytes path' .windows = foldBytes [67, 58, 92, 97, 92, 46, 46, 92, 98, 92, 46] .windows ∧
      KeepsHead (parseBytes [67, 58, 92, 97, 92, 46, 46] .windows)
        (parseBytes (foldBytes [67, 58, 92, 97, 92, 46, 46, 92, 98, 92, 46] .windows) .windows) := by
  have hjoin : joinUnder [67, 58, 92, 97, 92, 46, 46] [98, 92, 46] .windows =
      .ok [67, 58, 92, 97, 92, 46, 46, 92, 98, 92, 46] := by rfl
  exact ⟨hjoin, (fold_normal_form .windows).2 _ _ _ (by decide +kernel) hjoin⟩

/-- A fold can leave a dot: `a\..\C:x` is `.\C:x`, whose first name would else be a drive. -/
theorem guard_is_a_dot : ¬∀ path rules,
    ∀ n ∈ ((foldBytes path rules).drop (parseBytes (foldBytes path rules) rules).headLen).splitOnP (isSepByte rules),
      n ≠ here := by
  intro h
  exact absurd rfl (h [97, 92, 46, 46, 92, 67, 58, 120] .windows [46] (by decide +kernel))

end Ral.Path.Lex
