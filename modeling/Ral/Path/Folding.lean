import Ral.Path.Lex

/-! # What a fold keeps

A fold leaves a path its head, its volume at most respelled. Past one backslash alone can the names
it leaves be read as a namespace.
-/

namespace Ral.Path.Lex

/-! ## Heads kept -/

namespace HeadKind

/-- With every separator of its volume a `\`. -/
def respelled : HeadKind → HeadKind
  | .drive letter volume => .drive letter (volume.map (respell .windows))
  | .unc volume => .unc (volume.map (respell .windows))
  | kind => kind

end HeadKind

/-- The same kind of head, its volume up to respelling, and no namespace that was not there. -/
structure KeepsHead (before after : Parsed) : Prop where
  kind : after.kind.respelled = before.kind.respelled
  ns : ∀ ns, after.spelling.ns = some ns → before.spelling.ns = some ns

def joined (rules : PathRules) (rooted : Bool) (tail : List UInt8) : List UInt8 :=
  [separator rules].intercalate (foldNames rooted (tail.splitOnP (isSepByte rules)))

theorem bare_joined (rules : PathRules) (rooted : Bool) (tail : List UInt8) :
    Bare rules (joined rules rooted tail) := by
  apply @bare_join rules rooted
  exact isName_foldNames fun _ => solid_of_mem_splitOnP

theorem joined_nil (rules : PathRules) (rooted : Bool) : joined rules rooted [] = [] := by
  simp [joined, foldNames, foldName]

section Windows
variable {path : List UInt8} {kind : HeadKind} {spelling : HeadSpelling}

theorem keepsHead_iff {folded : List UInt8} (h : parseWindows path = (kind, spelling))
    (hfold : foldBytes path .windows = folded) :
    KeepsHead (parseBytes path .windows) (parseBytes (foldBytes path .windows) .windows) ↔
      (parseWindows folded).1.respelled = kind.respelled ∧
        ∀ ns, (parseWindows folded).2.ns = some ns → spelling.ns = some ns := by
  have hkind : (parseBytes path .windows).kind = kind := by simp [parseBytes, h]
  have hns : (parseBytes path .windows).spelling = spelling := by simp [parseBytes, h]
  constructor
  · rintro ⟨hk, hn⟩
    rw [hfold, hkind] at hk
    rw [hfold, hns] at hn
    exact ⟨hk, hn⟩
  · rintro ⟨hk, hn⟩
    constructor
    · rw [hfold, hkind]
      exact hk
    · rw [hfold, hns]
      exact hn

theorem foldBytes_whole (h : parseWindows path = (kind, spelling))
    (hlen : headLen path kind spelling.ns = path.length)
    (hrespell : Parsed.respellHead ⟨path, .windows, kind, spelling, path.length⟩ = false) :
    foldBytes path .windows = path := by
  have hnames (rooted : Bool) : foldNames rooted [[]] = [] := by simp [foldNames, foldName]
  simp [foldBytes, parseBytes, h, hlen, hrespell, hnames, guardDrive, List.intercalate]

theorem foldBytes_head (head tail : List UInt8) (h : parseWindows path = (kind, spelling))
    (hpath : path = head ++ tail) (hlen : headLen path kind spelling.ns = head.length) (hne : head ≠ []) :
    foldBytes path .windows =
      (if Parsed.respellHead ⟨path, .windows, kind, spelling, head.length⟩ then
          head.map (respell .windows) else head) ++
        joined .windows (Parsed.isRooted ⟨path, .windows, kind, spelling, head.length⟩) tail := by
  have htake : path.take head.length = head := by rw [hpath, List.take_left]
  have hdrop : path.drop head.length = tail := by rw [hpath, List.drop_left]
  simp [foldBytes, parseBytes, h, hlen, htake, hdrop, guardDrive, hne, joined]

theorem keeps_whole (h : parseWindows path = (kind, spelling))
    (hlen : headLen path kind spelling.ns = path.length)
    (hrespell : Parsed.respellHead ⟨path, .windows, kind, spelling, path.length⟩ = false) :
    KeepsHead (parseBytes path .windows) (parseBytes (foldBytes path .windows) .windows) := by
  rw [keepsHead_iff h (foldBytes_whole h hlen hrespell), h]
  exact ⟨rfl, fun _ hns => hns⟩

theorem fold_backslash {tail : List UInt8} (h : parseWindows (backslash :: tail) = (.driveless, spelling)) :
    foldBytes (backslash :: tail) .windows = backslash :: joined .windows true tail := by
  have hone : [backslash].map (respell .windows) = [backslash] := by decide
  rw [foldBytes_head [backslash] tail h rfl rfl (List.cons_ne_nil _ _), hone, ite_self]
  rfl

theorem keeps_driveless {tail : List UInt8} (h : parseWindows (backslash :: tail) = (.driveless, spelling)) :
    KeepsHead (parseBytes (backslash :: tail) .windows)
        (parseBytes (foldBytes (backslash :: tail) .windows) .windows) ↔
      (opensObject (backslash :: joined .windows true tail) = true → spelling.ns = some .object) := by
  have hafter := parseWindows_backslash (bare_joined .windows true tail)
  rw [keepsHead_iff h (fold_backslash h), hafter.1, hafter.2]
  constructor
  · intro hkeeps hobject
    exact hkeeps.2 .object (if_pos hobject)
  · intro hkeeps
    refine ⟨rfl, ?_⟩
    intro ns hns
    split at hns
    · next hobject =>
      rw [← Option.some.inj hns]
      exact hkeeps hobject
    · cases hns

theorem fold_slash {tail : List UInt8} (h : parseWindows (slash :: tail) = (.posix, spelling)) :
    foldBytes (slash :: tail) .windows = slash :: joined .windows true tail := by
  have hrespell : Parsed.respellHead ⟨slash :: tail, .windows, .posix, spelling, 1⟩ = false := by
    simp [Parsed.respellHead]
  rw [foldBytes_head [slash] tail h rfl rfl (List.cons_ne_nil _ _)]
  simp only [List.length_singleton, hrespell, Bool.false_eq_true, if_false]
  rfl

theorem keeps_slash {tail : List UInt8} (h : parseWindows (slash :: tail) = (.posix, spelling)) :
    KeepsHead (parseBytes (slash :: tail) .windows)
      (parseBytes (foldBytes (slash :: tail) .windows) .windows) := by
  rw [keepsHead_iff h (fold_slash h), parseWindows_slash (bare_joined .windows true tail)]
  exact ⟨rfl, nofun⟩

theorem parseWindows_driveRoot {letter sep : UInt8} (tail : List UInt8) (hletter : isAsciiAlphabetic letter = true)
    (hsep : isWinSep sep = true) :
    parseWindows (letter :: colon :: sep :: tail) = (.drive letter [letter, colon], ⟨none, false, false⟩) := by
  rw [parseWindows_drive hletter, if_pos (by simp [hsep])]

theorem fold_drive {letter sep : UInt8} (tail : List UInt8) (hletter : isAsciiAlphabetic letter = true)
    (hsep : isWinSep sep = true) : foldBytes (letter :: colon :: sep :: tail) .windows =
      letter :: colon :: backslash :: joined .windows true tail := by
  have h := parseWindows_driveRoot tail hletter hsep
  have hsep' : respell .windows sep = backslash := by simp [respell, show isSepByte .windows sep = true from hsep, separator]
  have hletter' := @respell_of_not_sep .windows _ (not_sep_of_alphabetic hletter)
  rw [foldBytes_head [letter, colon, sep] tail h rfl rfl (List.cons_ne_nil _ _)]
  simp [Parsed.respellHead, Parsed.isRooted, hletter', hsep', show respell .windows colon = colon from rfl]

theorem keeps_drive {letter sep : UInt8} {tail : List UInt8} (hletter : isAsciiAlphabetic letter = true)
    (hsep : isWinSep sep = true) : KeepsHead (parseBytes (letter :: colon :: sep :: tail) .windows)
      (parseBytes (foldBytes (letter :: colon :: sep :: tail) .windows) .windows) := by
  rw [keepsHead_iff (parseWindows_driveRoot tail hletter hsep) (fold_drive tail hletter hsep),
    parseWindows_driveRoot _ hletter rfl]
  exact ⟨rfl, nofun⟩

theorem parseWindows_driveRelative {letter : UInt8} {tail : List UInt8} (hletter : isAsciiAlphabetic letter = true)
    (htail : opens [isWinSep] tail = false) :
    parseWindows (letter :: colon :: tail) = (.driveRelative letter, ⟨none, false, false⟩) := by
  rw [parseWindows_drive hletter, htail, if_neg Bool.false_ne_true]

theorem fold_driveRelative {letter : UInt8} {tail : List UInt8} (hletter : isAsciiAlphabetic letter = true)
    (htail : opens [isWinSep] tail = false) :
    foldBytes (letter :: colon :: tail) .windows = letter :: colon :: joined .windows false tail := by
  have hletter' := @respell_of_not_sep .windows _ (not_sep_of_alphabetic hletter)
  rw [foldBytes_head [letter, colon] tail (parseWindows_driveRelative hletter htail) rfl rfl (List.cons_ne_nil _ _)]
  simp [Parsed.respellHead, Parsed.isRooted, hletter', show respell .windows colon = colon from rfl]

theorem unopened_joined (rooted : Bool) (tail : List UInt8) : opens [isWinSep] (joined .windows rooted tail) = false :=
  (bare_joined .windows rooted tail).not_opens fun _ h => h

theorem keeps_driveRelative {letter : UInt8} {tail : List UInt8} (hletter : isAsciiAlphabetic letter = true)
    (htail : opens [isWinSep] tail = false) : KeepsHead (parseBytes (letter :: colon :: tail) .windows)
      (parseBytes (foldBytes (letter :: colon :: tail) .windows) .windows) := by
  rw [keepsHead_iff (parseWindows_driveRelative hletter htail) (fold_driveRelative hletter htail),
    parseWindows_driveRelative hletter (unopened_joined false tail)]
  exact ⟨rfl, nofun⟩

theorem fold_relative (h : parseWindows path = (.relative, spelling)) : foldBytes path .windows =
    guardDrive .windows [] (foldNames false (path.splitOnP (isSepByte .windows))) ++ joined .windows false path := by
  simp [foldBytes, parseBytes, h, headLen, Parsed.isRooted, joined]

/-- Names joined past their guard spell neither a root nor a drive. -/
theorem parseWindows_guarded {names : List (List UInt8)} (hnames : ∀ n ∈ names, IsName .windows false n) :
    parseWindows (guardDrive .windows [] names ++ [separator .windows].intercalate names) =
      (.relative, ⟨none, false, false⟩) := by
  have hbare := bare_join hnames
  cases names with
  | nil =>
    simp only [guardDrive, List.intercalate, List.head?_nil, Option.any_none]
    rfl
  | cons name names =>
    cases hdrive : driveShaped name with
    | true =>
      have hguard : guardDrive .windows [] (name :: names) = [dot, backslash] := by simp [guardDrive, hdrive]
      rw [hguard]
      apply parseWindows_relative
      · intro b hb
        rw [← Option.some.inj hb]
        rfl
      · rfl
    | false =>
      have hguard : guardDrive .windows [] (name :: names) = [] := by simp [guardDrive, hdrive]
      obtain ⟨rest, hjoin, hends, _⟩ := join_cons .windows name names
      rw [hguard, List.nil_append]
      apply parseWindows_relative hbare
      rw [hjoin, Bool.eq_false_iff]
      intro hshaped
      rw [driveShaped_append (hnames name List.mem_cons_self).ne_nil hends hshaped] at hdrive
      cases hdrive

theorem keeps_relative (h : parseWindows path = (.relative, spelling)) :
    KeepsHead (parseBytes path .windows) (parseBytes (foldBytes path .windows) .windows) := by
  have hsolid : ∀ n ∈ foldNames false (path.splitOnP (isSepByte .windows)), IsName .windows false n :=
    isName_foldNames fun _ => solid_of_mem_splitOnP
  rw [keepsHead_iff h (fold_relative h), joined, parseWindows_guarded hsolid]
  exact ⟨rfl, nofun⟩

theorem map_respell_solid {name : List UInt8} (h : Solid .windows name) : name.map (respell .windows) = name :=
  calc name.map (respell .windows)
      = name.map id := List.map_congr_left fun b hb => respell_of_not_sep (h b hb)
    _ = name := List.map_id name

theorem respell_sep {b : UInt8} (h : isWinSep b = true) : respell .windows b = backslash := by
  simp [respell, show isSepByte .windows b = true from h, separator]

section Shares
variable {server share tail : List UInt8} {sep : UInt8}

theorem Closed.joined (tail : List UInt8) : Closed (backslash :: joined .windows true tail) :=
  .inr ⟨backslash, _, rfl, rfl⟩

theorem Share.retail (h : Share server sep share tail) {sep' : UInt8} (hsep : isWinSep sep' = true)
    {tail' : List UInt8} (htail : Closed tail') : Share server sep' share tail' :=
  ⟨h.named, h.server, hsep, h.share, htail⟩

theorem Share.not_dots (h : Share server sep share tail) {c : UInt8} (hc : c = dot ∨ c = question) :
    opens [(· == c), isWinSep] (server ++ sep :: (share ++ tail)) = false := by
  obtain ⟨hserver, hquestion, _⟩ := h.named
  match server with
  | [] => simp [Lex.named] at hserver
  | [b] =>
    have hb : b ≠ c := by
      rintro rfl
      rcases hc with rfl | rfl
      · simp [Lex.named, here] at hserver
      · exact hquestion rfl
    simp [hb]
  | b :: b' :: server =>
    have hsolid : isWinSep b' = false := h.server b' (by simp)
    simp [hsolid]

theorem parseWindows_unc (h : Share server sep share tail) {a : UInt8} (ha : isWinSep a = true) :
    parseWindows (a :: a :: (server ++ sep :: (share ++ tail))) =
      (.unc (a :: a :: (server ++ sep :: share)), ⟨none, false, a == slash⟩) := by
  have hquestion : a ≠ question := by
    rintro rfl
    exact absurd ha (by decide)
  have hmixed : (opens [(· == slash), (· == backslash)] (a :: a :: (server ++ sep :: (share ++ tail))) ||
      opens [(· == backslash), (· == slash)] (a :: a :: (server ++ sep :: (share ++ tail)))) = false := by
    rcases isWinSep_iff.mp ha with rfl | rfl <;> rfl
  have hobject : opensObject (a :: a :: (server ++ sep :: (share ++ tail))) = false := by
    simp [opensObject, hquestion]
  have hdots (c : UInt8) (hc : c = dot ∨ c = question) :
      opens [isWinSep, isWinSep, (· == c), isWinSep] (a :: a :: (server ++ sep :: (share ++ tail))) = false := by
    rw [opens_cons_cons, opens_cons_cons, h.not_dots hc, Bool.and_false, Bool.and_false]
  have hvolume := @Share.volume _ _ _ _ h [a, a] 2 rfl
  have hdoubled : doubledKind (a :: a :: (server ++ sep :: (share ++ tail))) false =
      .unc (a :: a :: (server ++ sep :: share)) := by
    rw [doubledKind, List.drop_succ_cons, List.drop_succ_cons, List.drop_zero, h.bytes]
    exact congrArg HeadKind.unc hvolume
  simp only [parseWindows, hobject, hdots dot (.inl rfl), hdots question (.inr rfl), hmixed, hdoubled]
  simp [ha]

theorem fold_share (h : Share server sep share []) {a : UInt8} (ha : isWinSep a = true) :
    foldBytes (a :: a :: (server ++ sep :: share)) .windows = backslash :: backslash :: (server ++ backslash :: share) := by
  have hparse := parseWindows_unc h ha
  rw [List.append_nil] at hparse
  rw [foldBytes_head (a :: a :: (server ++ sep :: share)) [] hparse (by simp) (by simp [headLen]) (List.cons_ne_nil _ _),
    joined_nil]
  simp [Parsed.respellHead, respell_sep ha, respell_sep h.sep, map_respell_solid h.server, map_respell_solid h.share]

theorem fold_unc {t : UInt8} {rest : List UInt8} (h : Share server sep share (t :: rest)) {a : UInt8}
    (ha : isWinSep a = true) (ht : isWinSep t = true) :
    foldBytes (a :: a :: (server ++ sep :: (share ++ t :: rest))) .windows =
      backslash :: backslash :: (server ++ backslash :: (share ++ backslash :: joined .windows true rest)) := by
  rw [foldBytes_head (a :: a :: (server ++ sep :: (share ++ [t]))) rest (parseWindows_unc h ha) (by simp)
    (by simp [headLen]; omega) (List.cons_ne_nil _ _)]
  simp [Parsed.respellHead, Parsed.isRooted, respell_sep ha, respell_sep h.sep, respell_sep ht,
    map_respell_solid h.server, map_respell_solid h.share]

theorem keeps_unc (h : Share server sep share tail) {a : UInt8} (ha : isWinSep a = true) :
    KeepsHead (parseBytes (a :: a :: (server ++ sep :: (share ++ tail))) .windows)
      (parseBytes (foldBytes (a :: a :: (server ++ sep :: (share ++ tail))) .windows) .windows) := by
  have hparse := parseWindows_unc h ha
  have hfold : ∃ tail', Closed tail' ∧ foldBytes (a :: a :: (server ++ sep :: (share ++ tail))) .windows =
      backslash :: backslash :: (server ++ backslash :: (share ++ tail')) := by
    rcases h.tail with rfl | ⟨t, rest, rfl, ht⟩
    · refine ⟨[], .inl rfl, ?_⟩
      rw [List.append_nil]
      exact fold_share h ha
    · exact ⟨_, .joined rest, fold_unc h ha ht⟩
  obtain ⟨tail', htail, hfold⟩ := hfold
  rw [keepsHead_iff hparse hfold, parseWindows_unc (h.retail rfl htail) rfl]
  constructor
  · simp [HeadKind.respelled, respell_sep ha, respell_sep h.sep, map_respell_solid h.server,
      map_respell_solid h.share, show respell .windows backslash = backslash from rfl]
  · nofun

end Shares

/-! ## Verbatim heads -/

section Verbatim
variable {a b c : UInt8}

theorem parseWindows_verbatim (ha : isWinSep a = true) (hb : isWinSep b = true) (hc : isWinSep c = true)
    (rest : List UInt8) : (parseWindows (a :: b :: question :: c :: rest)).1 =
        verbatimKind (a :: b :: question :: c :: rest) ∧
      (parseWindows (a :: b :: question :: c :: rest)).2.ns =
        some (.verbatim (exactPrefix [a, b, question, c])) := by
  have hquestion : b ≠ question := by
    rintro rfl
    exact absurd hb (by decide)
  have hobject : opensObject (a :: b :: question :: c :: rest) = false := by simp [opensObject, hquestion]
  simp only [parseWindows, hobject]
  simp [ha, hb, hc, exactPrefix, show question ≠ dot by decide]

theorem verbatimUncTailBytes_append {unc : List UInt8} (hlen : unc.length = 4) (hunc : opensUnc unc = true)
    (rest : List UInt8) : verbatimUncTailBytes (unc ++ rest) = some rest := by
  have happend : opensUnc (unc ++ rest) = true := by
    rw [opensUnc, opens_append (by simp [hlen])]
    exact hunc
  rw [verbatimUncTailBytes, if_pos happend, ← hlen, List.drop_left]

theorem verbatimKind_unc {front unc server share tail : List UInt8} {sep : UInt8} (hfront : front.length = 4)
    (hlen : unc.length = 4) (hunc : opensUnc unc = true) (h : Share server sep share tail) :
    verbatimKind (front ++ (unc ++ (server ++ sep :: (share ++ tail)))) =
      .unc (front ++ (unc ++ (server ++ sep :: share))) := by
  have hdrop : (front ++ (unc ++ (server ++ sep :: (share ++ tail)))).drop 4 =
      unc ++ (server ++ sep :: (share ++ tail)) := by rw [← hfront, List.drop_left]
  have hvolume := @Share.volume _ _ _ _ h (front ++ unc) 8 (by simp [hfront, hlen])
  simp only [List.append_assoc] at hvolume
  simp only [verbatimKind, hdrop, verbatimUncTailBytes_append hlen hunc, Option.any_some, h.bytes, if_true,
    hvolume]

theorem verbatimKind_drive {front : List UInt8} {letter sep : UInt8} (hfront : front.length = 4)
    (hletter : isAsciiAlphabetic letter = true) (hsep : isWinSep sep = true) (rest : List UInt8) :
    verbatimKind (front ++ letter :: colon :: sep :: rest) = .drive letter (front ++ [letter, colon]) := by
  have hdrop : (front ++ letter :: colon :: sep :: rest).drop 4 = letter :: colon :: sep :: rest := by
    rw [← hfront, List.drop_left]
  have htake : (front ++ letter :: colon :: sep :: rest).take 6 = front ++ [letter, colon] := by
    rw [show 6 = front.length + 2 by omega, List.take_length_add_append]
    rfl
  have hunc : verbatimUncTailBytes (letter :: colon :: sep :: rest) = none := by
    simp [verbatimUncTailBytes, opensUnc, show (colon == 78) = false by decide, show (colon == 110) = false by decide]
  simp only [verbatimKind, hdrop, htake, hunc]
  simp [hletter, hsep]

theorem exists_unc {rest bytes : List UInt8} (h : verbatimUncTailBytes rest = some bytes) :
    ∃ unc, rest = unc ++ bytes ∧ unc.length = 4 ∧ opensUnc unc = true := by
  unfold verbatimUncTailBytes at h
  split at h
  · next hopens =>
    obtain ⟨u, rest, rfl, hu, hopens⟩ := exists_of_opens_cons hopens
    obtain ⟨n, rest, rfl, hn, hopens⟩ := exists_of_opens_cons hopens
    obtain ⟨c, rest, rfl, hc, hopens⟩ := exists_of_opens_cons hopens
    obtain ⟨sep, rest, rfl, hsep, _⟩ := exists_of_opens_cons hopens
    cases h
    refine ⟨[u, n, c, sep], rfl, rfl, ?_⟩
    simp only [opensUnc, opens_cons_cons, opens_nil, hu, hn, hc, hsep, Bool.and_self]
  · cases h

/-- What is well formed past a verbatim prefix. -/
theorem verbatimKind_cases {front : List UInt8} (hfront : front.length = 4) (rest : List UInt8) :
    verbatimKind (front ++ rest) = .malformed ∨
      (∃ letter sep tail, rest = letter :: colon :: sep :: tail ∧ isAsciiAlphabetic letter = true ∧
        isWinSep sep = true) ∨
      ∃ unc server sep share tail, rest = unc ++ (server ++ sep :: (share ++ tail)) ∧ unc.length = 4 ∧
        opensUnc unc = true ∧ Share server sep share tail := by
  have hdrop : (front ++ rest).drop 4 = rest := by rw [← hfront, List.drop_left]
  unfold verbatimKind
  rw [hdrop]
  dsimp only
  split
  · next hunc =>
    right
    right
    obtain ⟨bytes, hbytes, hshare⟩ := Option.any_eq_true _ _ |>.mp hunc
    obtain ⟨unc, rfl, hlen, hmark⟩ := exists_unc hbytes
    obtain ⟨server, sep, share, tail, rfl, h⟩ := exists_share hshare
    exact ⟨unc, server, sep, share, tail, rfl, hlen, hmark, h⟩
  split
  · next hdrive =>
    right
    left
    obtain ⟨letter, rest, rfl, hletter, hdrive⟩ := exists_of_opens_cons hdrive
    obtain ⟨col, rest, rfl, hcolon, hdrive⟩ := exists_of_opens_cons hdrive
    obtain ⟨sep, rest, rfl, hsep, _⟩ := exists_of_opens_cons hdrive
    exact ⟨letter, sep, rest, by rw [beq_iff_eq.mp hcolon], hletter, hsep⟩
  · exact .inl rfl

theorem headLen_verbatim_exact (path : List UInt8) :
    headLen path (verbatimKind path) (some (.verbatim true)) = path.length := by
  unfold verbatimKind
  dsimp only
  split
  · rfl
  split
  · rfl
  · rfl

theorem keeps_cut (head tail : List UInt8) (hparse : parseWindows path = (kind, spelling))
    (hrespell : ∀ len, Parsed.respellHead ⟨path, .windows, kind, spelling, len⟩ = false)
    (hpath : path = head ++ tail) (hlen : headLen path kind spelling.ns = head.length) (hne : head ≠ [])
    (hkeeps : ∀ rest, (parseWindows (head ++ rest)).1 = kind ∧ (parseWindows (head ++ rest)).2.ns = spelling.ns) :
    KeepsHead (parseBytes path .windows) (parseBytes (foldBytes path .windows) .windows) := by
  have hfold := foldBytes_head head tail hparse hpath hlen hne
  rw [hrespell, if_neg Bool.false_ne_true] at hfold
  rw [keepsHead_iff hparse hfold, (hkeeps _).1, (hkeeps _).2]
  exact ⟨rfl, fun _ h => h⟩

theorem keeps_verbatim (ha : isWinSep a = true) (hb : isWinSep b = true) (hc : isWinSep c = true)
    (rest : List UInt8) : KeepsHead (parseBytes (a :: b :: question :: c :: rest) .windows)
      (parseBytes (foldBytes (a :: b :: question :: c :: rest) .windows) .windows) := by
  obtain ⟨hkind, hns⟩ := parseWindows_verbatim ha hb hc rest
  cases hparse : parseWindows (a :: b :: question :: c :: rest) with
  | mk kind spelling =>
  rw [hparse] at hkind hns
  simp only at hkind hns
  have hrespell (len : ℕ) : Parsed.respellHead ⟨a :: b :: question :: c :: rest, .windows, kind, spelling, len⟩ = false := by
    show (spelling.ns.isNone && _) = false
    rw [hns]
    rfl
  cases hexact : exactPrefix [a, b, question, c] with
  | true =>
    apply keeps_whole hparse _ (hrespell _)
    rw [hkind, hns, hexact]
    exact headLen_verbatim_exact _
  | false =>
    rcases @verbatimKind_cases [a, b, question, c] rfl rest with h | h | h
    · apply keeps_whole hparse _ (hrespell _)
      rw [hkind.trans h]
      rfl
    · obtain ⟨letter, sep, tail, rfl, hletter, hsep⟩ := h
      have hdrive (rest : List UInt8) := @verbatimKind_drive [a, b, question, c] _ _ rfl hletter hsep rest
      have hk := hkind.trans (hdrive tail)
      apply keeps_cut [a, b, question, c, letter, colon, sep] tail hparse hrespell rfl _ (by simp)
      · intro rest
        obtain ⟨hkind', hns'⟩ := parseWindows_verbatim ha hb hc (letter :: colon :: sep :: rest)
        exact ⟨hkind'.trans ((hdrive rest).trans hk.symm), hns'.trans hns.symm⟩
      · rw [hk, hns]
        simp [headLen, Namespace.isExact, hexact]
    · obtain ⟨unc, server, sep, share, tail, rfl, hlen, hunc, hshare⟩ := h
      have hk := hkind.trans (@verbatimKind_unc [a, b, question, c] _ _ _ _ _ rfl hlen hunc hshare)
      rcases hshare.tail with rfl | ⟨t, tail, rfl, ht⟩
      · apply keeps_whole hparse _ (hrespell _)
        rw [hk, hns]
        simp [headLen, Namespace.isExact, hexact]
      · apply keeps_cut ([a, b, question, c] ++ (unc ++ (server ++ sep :: (share ++ [t])))) tail
          hparse hrespell (by simp) _ (by simp)
        · intro rest
          obtain ⟨hkind', hns'⟩ := parseWindows_verbatim ha hb hc (unc ++ (server ++ sep :: (share ++ t :: rest)))
          have hshare' : Share server sep share (t :: rest) := hshare.retail hshare.sep (.inr ⟨t, rest, rfl, ht⟩)
          have hk' := @verbatimKind_unc [a, b, question, c] _ _ _ _ _ rfl hlen hunc hshare'
          have happend : [a, b, question, c] ++ (unc ++ (server ++ sep :: (share ++ [t]))) ++ rest =
              a :: b :: question :: c :: (unc ++ (server ++ sep :: (share ++ t :: rest))) := by simp
          rw [happend]
          exact ⟨hkind'.trans (hk'.trans hk.symm), hns'.trans hns.symm⟩
        · rw [hk, hns]
          simp [headLen, Namespace.isExact, hexact]
          omega

end Verbatim

/-! ## A namespace from names -/

/-- `??` -/
def objectName : List UInt8 := [question, question]

/-- How many names are left after these. -/
def depth (parts : List (List UInt8)) : ℕ :=
  parts.foldl (fun d part => if part = [] ∨ part = here then d else if part = parent then d - 1 else d + 1) 0

def Stays (name : List UInt8) (parts : List (List UInt8)) : Prop := ∃ before after,
  parts = before ++ name :: after ∧ depth before = 0 ∧ ∀ front, front <+: after → 0 < depth (before ++ name :: front)

theorem depth_append (parts : List (List UInt8)) (part : List UInt8) : depth (parts ++ [part]) =
    if part = [] ∨ part = here then depth parts else if part = parent then depth parts - 1 else depth parts + 1 := by
  simp [depth]

theorem foldName_rooted {names : List (List UInt8)} {part : List UInt8} (h : parent ∉ names) :
    foldName true names part = if part = [] ∨ part = here then names else
      if part = parent then names.dropLast else names ++ [part] := by
  unfold foldName
  split
  · rfl
  · by_cases hparent : part = parent
    · cases names using List.reverseRecOn with
      | nil => simp [hparent]
      | append_singleton names last =>
        have hlast : last ≠ parent := fun he => h (by simp [he])
        simp [hparent, hlast]
    · simp [hparent]

theorem parent_not_mem (parts : List (List UInt8)) : parent ∉ foldNames true parts := by
  induction parts using List.reverseRecOn with
  | nil => exact List.not_mem_nil
  | append_singleton parts part ih =>
    rw [foldNames_append, foldName_rooted ih]
    split
    · exact ih
    split
    · exact fun hmem => ih (List.dropLast_subset _ hmem)
    · next hparent =>
      intro hmem
      rcases List.mem_append.mp hmem with hmem | hmem
      · exact ih hmem
      · exact hparent (List.mem_singleton.mp hmem).symm

theorem length_foldNames (parts : List (List UInt8)) : (foldNames true parts).length = depth parts := by
  induction parts using List.reverseRecOn with
  | nil => rfl
  | append_singleton parts part ih =>
    rw [foldNames_append, foldName_rooted (parent_not_mem parts), depth_append]
    split
    · exact ih
    split
    · rw [List.length_dropLast, ih]
    · rw [List.length_append, ih]
      rfl

theorem Stays.positive {name : List UInt8} {parts : List (List UInt8)} (h : Stays name parts) : 0 < depth parts := by
  obtain ⟨before, after, rfl, _, hpositive⟩ := h
  exact hpositive after List.prefix_rfl

/-- One more part leaves the name where it was, unless it is taken. -/
theorem Stays.append_iff {name part : List UInt8} {parts : List (List UInt8)} (hpart : part ≠ name) :
    Stays name (parts ++ [part]) ↔ Stays name parts ∧ 0 < depth (parts ++ [part]) := by
  constructor
  · rintro ⟨before, after, hsplit, hbefore, hpositive⟩
    cases after using List.reverseRecOn with
    | nil =>
      obtain ⟨_, he⟩ := List.append_inj' hsplit rfl
      exact absurd (List.singleton_inj.mp he) hpart
    | append_singleton after last =>
      rw [← List.cons_append, ← List.append_assoc] at hsplit
      obtain ⟨rfl, he⟩ := List.append_inj' hsplit rfl
      rw [List.singleton_inj.mp he]
      refine ⟨⟨before, after, rfl, hbefore, ?_⟩, ?_⟩
      · exact fun front hfront => hpositive front (hfront.trans (List.prefix_append _ _))
      · have hall := hpositive (after ++ [last]) List.prefix_rfl
        rwa [← List.cons_append, ← List.append_assoc] at hall
  · rintro ⟨⟨before, after, rfl, hbefore, hpositive⟩, hlast⟩
    refine ⟨before, after ++ [part], by simp, hbefore, ?_⟩
    intro front hfront
    rcases List.prefix_concat_iff.mp hfront with rfl | hfront
    · rwa [← List.cons_append, ← List.append_assoc]
    · exact hpositive front hfront

theorem head_foldNames {name : List UInt8} (hempty : name ≠ []) (hhere : name ≠ here) (hparent : name ≠ parent)
    (parts : List (List UInt8)) : (foldNames true parts).head? = some name ↔ Stays name parts := by
  induction parts using List.reverseRecOn with
  | nil =>
    constructor
    · nofun
    · intro h
      exact absurd h.positive (Nat.lt_irrefl 0)
  | append_singleton parts part ih =>
    have hlen := length_foldNames parts
    have hrooted := @foldName_rooted _ part (parent_not_mem parts)
    have hdepth := depth_append parts part
    rw [foldNames_append, hrooted]
    by_cases hdrop : part = [] ∨ part = here
    · have hne : part ≠ name := by
        rintro rfl
        rcases hdrop with h | h
        · exact hempty h
        · exact hhere h
      rw [if_pos hdrop] at hdepth
      rw [if_pos hdrop, ih, Stays.append_iff hne, hdepth]
      exact ⟨fun h => ⟨h, h.positive⟩, And.left⟩
    rw [if_neg hdrop] at hdepth ⊢
    by_cases htakes : part = parent
    · have hne : part ≠ name := fun he => hparent (he.symm.trans htakes)
      rw [if_pos htakes] at hdepth
      rw [if_pos htakes, Stays.append_iff hne, hdepth, ← ih, ← hlen]
      cases hnames : foldNames true parts with
      | nil => simp
      | cons first rest =>
        cases rest with
        | nil => simp
        | cons second rest => simp
    rw [if_neg htakes] at hdepth ⊢
    cases hnames : foldNames true parts with
    | nil =>
      rw [hnames] at hlen
      have hzero : depth parts = 0 := hlen.symm
      constructor
      · intro hhead
        rw [← Option.some.inj hhead]
        refine ⟨parts, [], rfl, hzero, ?_⟩
        intro front hfront
        rw [List.prefix_nil.mp hfront, depth_append, if_neg hdrop, if_neg htakes]
        exact Nat.succ_pos _
      · intro hstays
        by_cases hne : part = name
        · rw [hne]
          rfl
        · rw [Stays.append_iff hne] at hstays
          have hpositive := hstays.1.positive
          omega
    | cons first rest =>
      rw [hnames] at hlen ih
      have hpositive : 0 < depth parts := by
        rw [← hlen]
        exact Nat.succ_pos _
      rw [List.cons_append, List.head?_cons]
      rw [List.head?_cons] at ih
      rw [ih]
      constructor
      · rintro ⟨before, after, rfl, hbefore, hall⟩
        refine ⟨before, after ++ [part], by simp, hbefore, ?_⟩
        intro front hfront
        rcases List.prefix_concat_iff.mp hfront with rfl | hfront
        · rw [← List.cons_append, ← List.append_assoc, hdepth]
          exact Nat.succ_pos _
        · exact hall front hfront
      · rintro ⟨before, after, hsplit, hbefore, hall⟩
        cases after using List.reverseRecOn with
        | nil =>
          obtain ⟨rfl, _⟩ := List.append_inj' hsplit rfl
          omega
        | append_singleton after last =>
          rw [← List.cons_append, ← List.append_assoc] at hsplit
          obtain ⟨rfl, _⟩ := List.append_inj' hsplit rfl
          exact ⟨before, after, rfl, hbefore, fun front hfront => hall front (hfront.trans (List.prefix_append _ _))⟩

/-- A namespace opens the names joined past one backslash when `??` is first among them and not
last. -/
theorem opensObject_joined (tail : List UInt8) : opensObject (backslash :: joined .windows true tail) = true ↔
    Stays objectName (tail.splitOnP isWinSep) ∧ 2 ≤ depth (tail.splitOnP isWinSep) := by
  have hsolid : ∀ n ∈ foldNames true (tail.splitOnP (isSepByte .windows)), IsName .windows true n :=
    isName_foldNames fun _ => solid_of_mem_splitOnP
  rw [← head_foldNames (by decide) (by decide) (by decide), ← length_foldNames, show joined .windows true tail =
    [backslash].intercalate (foldNames true (tail.splitOnP isWinSep)) from rfl]
  change ∀ n ∈ foldNames true (tail.splitOnP isWinSep), _ at hsolid
  cases hnames : foldNames true (tail.splitOnP isWinSep) with
  | nil => simp [List.intercalate, opensObject]
  | cons name names =>
    rw [hnames] at hsolid
    have hname := hsolid name List.mem_cons_self
    obtain ⟨rest, hjoin, hends, hrest⟩ := join_cons .windows name names
    have hlen : 2 ≤ (name :: names).length ↔ rest ≠ [] := by
      rw [ne_eq, hrest]
      cases names <;> simp
    rw [show [backslash].intercalate (name :: names) = name ++ rest from hjoin, hlen, List.head?_cons,
      Option.some.injEq]
    constructor
    · intro hopens
      rcases name with _ | ⟨b, _ | ⟨b', _ | ⟨c, name⟩⟩⟩
      · exact absurd rfl hname.ne_nil
      · rcases hends with rfl | ⟨more, rfl⟩
        · simp [opensObject] at hopens
        · simp [opensObject, separator, show backslash ≠ question by decide] at hopens
      · rcases hends with rfl | ⟨more, rfl⟩
        · simp [opensObject] at hopens
        · simp only [opensObject, List.cons_append, List.nil_append, opens_cons_cons, opens_nil,
            Bool.and_true, Bool.and_eq_true, beq_iff_eq] at hopens
          rw [hopens.2.1, hopens.2.2.1]
          exact ⟨rfl, List.cons_ne_nil _ _⟩
      · simp only [opensObject, List.cons_append, opens_cons_cons, opens_nil, Bool.and_true,
          Bool.and_eq_true, beq_iff_eq] at hopens
        have hc := hname.solid c (by simp)
        rw [hopens.2.2.2] at hc
        cases hc
    · rintro ⟨rfl, hne⟩
      rcases hends with rfl | ⟨more, rfl⟩
      · exact absurd rfl hne
      · simp [opensObject, objectName, separator]

/-- Past one backslash, and with no namespace, names that leave one. -/
def Uncovers (path : List UInt8) : Prop := ∃ tail, path = backslash :: tail ∧ opensObject path = false ∧
  Bare .windows tail ∧ Stays objectName (tail.splitOnP isWinSep) ∧ 2 ≤ depth (tail.splitOnP isWinSep)

end Windows

/-! ## Either rules -/

theorem unopened_posix (rooted : Bool) (tail : List UInt8) : opens [(· == slash)] (joined .posix rooted tail) = false := by
  have hnot := bare_joined .posix rooted tail
  cases hjoined : joined .posix rooted tail with
  | nil => rfl
  | cons b bytes =>
    rw [hjoined] at hnot
    have hb := hnot b rfl
    rw [opens_cons_cons, Bool.and_eq_false_iff]
    left
    rw [Bool.eq_false_iff]
    intro hslash
    rw [beq_iff_eq.mp hslash] at hb
    cases hb

theorem fold_posix (tail : List UInt8) : foldBytes (slash :: tail) .posix = slash :: joined .posix true tail := rfl

theorem fold_posix_relative {path : List UInt8} (h : opens [(· == slash)] path = false) :
    foldBytes path .posix = joined .posix false path := by
  simp [foldBytes, parseBytes, parsePosix, h, headLen, Parsed.isRooted, guardDrive, joined]

theorem keeps_posix (path : List UInt8) :
    KeepsHead (parseBytes path .posix) (parseBytes (foldBytes path .posix) .posix) := by
  have hkind (raw : List UInt8) : (parseBytes raw .posix).kind =
      if opens [(· == slash)] raw then .posix else .relative := rfl
  refine ⟨?_, nofun⟩
  cases hopens : opens [(· == slash)] path with
  | true =>
    obtain ⟨b, tail, rfl, hb, _⟩ := exists_of_opens_cons hopens
    rw [beq_iff_eq.mp hb, fold_posix, hkind, hkind]
    rfl
  | false => rw [fold_posix_relative hopens, hkind, hkind, hopens, unopened_posix]

/-- How a path can open under Windows rules. -/
inductive Shape : List UInt8 → Prop
  | relative {path : List UInt8} (hbare : Bare .windows path) (hdrive : driveShaped path = false) : Shape path
  | slash {tail : List UInt8} (hbare : Bare .windows tail) : Shape (slash :: tail)
  | backslash {tail : List UInt8} (hbare : Bare .windows tail) : Shape (backslash :: tail)
  | drive {letter sep : UInt8} {tail : List UInt8} (hletter : isAsciiAlphabetic letter = true)
      (hsep : isWinSep sep = true) : Shape (letter :: colon :: sep :: tail)
  | driveRelative {letter : UInt8} {tail : List UInt8} (hletter : isAsciiAlphabetic letter = true)
      (htail : opens [isWinSep] tail = false) : Shape (letter :: colon :: tail)
  | unc {a sep : UInt8} {server share tail : List UInt8} (ha : isWinSep a = true) (h : Share server sep share tail) :
      Shape (a :: a :: (server ++ sep :: (share ++ tail)))
  | verbatim {a b c : UInt8} {rest : List UInt8} (ha : isWinSep a = true) (hb : isWinSep b = true)
      (hc : isWinSep c = true) : Shape (a :: b :: question :: c :: rest)
  | device {path : List UInt8} {spelling : HeadSpelling} (h : parseWindows path = (.device, spelling)) : Shape path
  | malformed {path : List UInt8} {spelling : HeadSpelling} (h : parseWindows path = (.malformed, spelling)) : Shape path

/-- A path that opens with two separators. -/
theorem shape_doubled {a b : UInt8} (ha : isWinSep a = true) (hb : isWinSep b = true) (rest : List UInt8) :
    Shape (a :: b :: rest) := by
  have hquestion : b ≠ question := by
    rintro rfl
    exact absurd hb (by decide)
  have hobject : opensObject (a :: b :: rest) = false := by simp [opensObject, hquestion]
  cases hdevice : opens [isWinSep, isWinSep, (· == dot), isWinSep] (a :: b :: rest) with
  | true =>
    have hparse : (parseWindows (a :: b :: rest)).1 = .device := by
      simp only [parseWindows, hobject, hdevice]
      rfl
    exact .device (Prod.ext hparse rfl)
  | false =>
    cases hverbatim : opens [isWinSep, isWinSep, (· == question), isWinSep] (a :: b :: rest) with
    | true =>
      obtain ⟨_, rest, he, _, hverbatim⟩ := exists_of_opens_cons hverbatim
      obtain ⟨_, rest, rfl, _, hverbatim⟩ := exists_of_opens_cons hverbatim
      obtain ⟨q, rest, rfl, hq, hverbatim⟩ := exists_of_opens_cons hverbatim
      obtain ⟨c, rest, rfl, hc, _⟩ := exists_of_opens_cons hverbatim
      cases he
      rw [beq_iff_eq.mp hq]
      exact .verbatim ha hb hc
    | false =>
      have hopens : opens [isWinSep, isWinSep] (a :: b :: rest) = true := by simp [ha, hb]
      obtain ⟨mixed, hmixed⟩ : ∃ mixed, (opens [(· == slash), (· == backslash)] (a :: b :: rest) ||
          opens [(· == backslash), (· == slash)] (a :: b :: rest)) = mixed := ⟨_, rfl⟩
      have hparse : parseWindows (a :: b :: rest) =
          (doubledKind (a :: b :: rest) mixed, ⟨none, mixed, a == slash⟩) := by
        simp only [parseWindows, hobject, hdevice, hverbatim, hopens, hmixed]
        simp
      have hsame : mixed = false → a = b := by
        rintro rfl
        rcases isWinSep_iff.mp ha with rfl | rfl <;> rcases isWinSep_iff.mp hb with rfl | rfl
        · rfl
        · simp at hmixed
        · simp at hmixed
        · rfl
      cases hshare : (!mixed && serverShareBytes (rest.splitOnP isWinSep)) with
      | true =>
        rw [Bool.and_eq_true, Bool.not_eq_true'] at hshare
        obtain ⟨server, sep, share, tail, rfl, h⟩ := exists_share hshare.2
        rw [← hsame hshare.1]
        exact .unc ha h
      | false =>
        have hkind : doubledKind (a :: b :: rest) mixed = .malformed := by
          rw [doubledKind, List.drop_succ_cons, List.drop_succ_cons, List.drop_zero, hshare, if_neg Bool.false_ne_true]
        rw [hkind] at hparse
        exact .malformed hparse

theorem shape (path : List UInt8) : Shape path := by
  match path with
  | [] => exact .relative nofun rfl
  | b :: rest =>
    cases hb : isWinSep b with
    | false =>
      cases hdrive : driveShaped (b :: rest) with
      | true =>
        obtain ⟨letter, rest, he, hletter, hdrive⟩ := exists_of_opens_cons hdrive
        obtain ⟨c, rest, rfl, hc, _⟩ := exists_of_opens_cons hdrive
        cases he
        rw [beq_iff_eq.mp hc]
        cases hsep : opens [isWinSep] rest with
        | true =>
          obtain ⟨sep, tail, rfl, hsep, _⟩ := exists_of_opens_cons hsep
          exact .drive hletter hsep
        | false => exact .driveRelative hletter hsep
      | false =>
        refine .relative ?_ hdrive
        intro c hc
        rw [← Option.some.inj hc]
        exact hb
    | true =>
      cases hrest : opens [isWinSep] rest with
      | true =>
        obtain ⟨c, rest, rfl, hc, _⟩ := exists_of_opens_cons hrest
        exact shape_doubled hb hc rest
      | false =>
        have hbare : Bare .windows rest := by
          intro c hc
          obtain ⟨bytes, rfl⟩ := List.head?_eq_some_iff.mp hc
          simpa [isWinSep] using hrest
        rcases isWinSep_iff.mp hb with rfl | rfl
        · exact .slash hbare
        · exact .backslash hbare

theorem not_uncovers {path : List UInt8} (h : ∀ tail, path = backslash :: tail → ¬Bare .windows tail) : ¬Uncovers path := by
  rintro ⟨tail, htail, _, hbare, _⟩
  exact h tail htail hbare

theorem not_bare_cons {b : UInt8} {tail : List UInt8} (h : isWinSep b = true) : ¬Bare .windows (b :: tail) := by
  intro hbare
  rw [isWinSep, hbare b rfl] at h
  cases h

theorem keeps_windows (path : List UInt8) :
    KeepsHead (parseBytes path .windows) (parseBytes (foldBytes path .windows) .windows) ↔ ¬Uncovers path := by
  have hnot {path : List UInt8} (hkeeps : KeepsHead (parseBytes path .windows) (parseBytes (foldBytes path .windows) .windows))
      (h : ∀ tail, path = backslash :: tail → ¬Bare .windows tail) :
      KeepsHead (parseBytes path .windows) (parseBytes (foldBytes path .windows) .windows) ↔ ¬Uncovers path :=
    ⟨fun _ => not_uncovers h, fun _ => hkeeps⟩
  have hsolo {kind : HeadKind} {spelling : HeadSpelling} {path : List UInt8} (h : parseWindows path = (kind, spelling))
      (hkind : kind ≠ .driveless) (tail : List UInt8) (he : path = backslash :: tail) : ¬Bare .windows tail := by
    intro hbare
    subst he
    have hdriveless := (parseWindows_backslash hbare).1
    rw [h] at hdriveless
    exact hkind hdriveless
  cases shape path with
  | relative hbare hdrive =>
    have h := parseWindows_relative hbare hdrive
    exact hnot (keeps_relative h) (hsolo h nofun)
  | slash hbare => exact hnot (keeps_slash (parseWindows_slash hbare)) fun tail he => by cases he
  | drive hletter hsep => exact hnot (keeps_drive hletter hsep) (hsolo (parseWindows_driveRoot _ hletter hsep) nofun)
  | driveRelative hletter htail =>
    exact hnot (keeps_driveRelative hletter htail) (hsolo (parseWindows_driveRelative hletter htail) nofun)
  | unc ha h => exact hnot (keeps_unc h ha) (hsolo (parseWindows_unc h ha) nofun)
  | verbatim ha hb hc =>
    refine hnot (keeps_verbatim ha hb hc _) ?_
    intro tail he
    cases he
    exact not_bare_cons hb
  | device h => exact hnot (keeps_whole h rfl (by simp [Parsed.respellHead])) (hsolo h nofun)
  | malformed h => exact hnot (keeps_whole h rfl (by simp [Parsed.respellHead])) (hsolo h nofun)
  | @backslash rest hbare =>
    obtain ⟨hkind, hns⟩ := parseWindows_backslash hbare
    cases hparse : parseWindows (backslash :: rest) with
    | mk kind spelling =>
    rw [hparse] at hkind hns
    simp only at hkind hns
    subst hkind
    rw [keeps_driveless hparse, opensObject_joined, hns]
    constructor
    · rintro himp ⟨tail, he, hobject, _, hstays⟩
      cases he
      have hsome := himp hstays
      rw [hobject] at hsome
      cases hsome
    · intro huncovers hstays
      cases hobject : opensObject (backslash :: rest) with
      | true => rfl
      | false => exact absurd ⟨rest, rfl, hobject, hbare, hstays⟩ huncovers

/-- The fold keeps its path's head except where it leaves `??` and more under one backslash. -/
theorem fold_keeps_head (path : List UInt8) (rules : PathRules) :
    KeepsHead (parseBytes path rules) (parseBytes (foldBytes path rules) rules) ↔
      ¬(rules = .windows ∧ Uncovers path) := by
  cases rules with
  | posix => simp [keeps_posix]
  | windows =>
    rw [keeps_windows]
    simp

/-- `\.\??\x` is folded to `\??\x`, a path in the object namespace. -/
theorem fold_manufactures_namespace : ¬∀ path rules,
    KeepsHead (parseBytes path rules) (parseBytes (foldBytes path rules) rules) := by
  intro h
  have hns := (h [92, 46, 92, 63, 63, 92, 120] .windows).ns .object (by decide +kernel)
  exact absurd hns (by decide +kernel)

end Ral.Path.Lex
