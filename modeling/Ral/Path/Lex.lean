import Mathlib.Data.List.Induction
import Ral.Path.Position

/-! # Heads and folding

How a path's opening bytes are read under either platform's rules, and the fold of `.` and `..`
that touches no filesystem. Bytes are a path's encoded ones.
-/

namespace Ral.Path.Lex

def slash : UInt8 := 47
def backslash : UInt8 := 92
def colon : UInt8 := 58
def question : UInt8 := 63
def dot : UInt8 := 46

/-- The names a walk does not enter. -/
def here : List UInt8 := [dot]
def parent : List UInt8 := [dot, dot]

def isSepByte (rules : PathRules) (b : UInt8) : Bool :=
  b == slash || (rules == .windows && b == backslash)

def isWinSep (b : UInt8) : Bool := isSepByte .windows b

def isAsciiAlphabetic (b : UInt8) : Bool := (65 ≤ b && b ≤ 90) || (97 ≤ b && b ≤ 122)

def separator : PathRules → UInt8
  | .posix => slash
  | .windows => backslash

/-! ## Heads -/

/-- The 4-byte Windows prefix a path opens with; `exact` where its separators are all `\`. -/
inductive Namespace
  | verbatim (exact : Bool)
  | device (exact : Bool)
  | object
deriving DecidableEq

def Namespace.isExact : Namespace → Bool
  | .verbatim exact => exact
  | .device exact => exact
  | .object => true

structure HeadSpelling where
  ns : Option Namespace
  mixedOpening : Bool
  opensWithSlash : Bool
deriving DecidableEq

inductive HeadKind
  | posix
  | drive (letter : UInt8) (volume : List UInt8)
  | unc (volume : List UInt8)
  | driveless
  | driveRelative (letter : UInt8)
  | relative
  | device
  /-- Two separators, or a verbatim prefix, with nothing well formed past them. -/
  | malformed
deriving DecidableEq

/-- A path parsed once; `headLen` is where its foldable tail begins. -/
structure Parsed where
  raw : List UInt8
  rules : PathRules
  kind : HeadKind
  spelling : HeadSpelling
  headLen : ℕ

def opens : List (UInt8 → Bool) → List UInt8 → Bool
  | [], _ => true
  | _ :: _, [] => false
  | p :: ps, b :: bs => p b && opens ps bs

/-- `d:` -/
def driveShaped (name : List UInt8) : Bool := opens [isAsciiAlphabetic, (· == colon)] name

def parsePosix (raw : List UInt8) : HeadKind × HeadSpelling :=
  let opensWithSlash := opens [(· == slash)] raw
  (if opensWithSlash then .posix else .relative, ⟨none, false, opensWithSlash⟩)

def opensUnc (tail : List UInt8) : Bool :=
  opens [fun b => b == 85 || b == 117, fun b => b == 78 || b == 110, fun b => b == 67 || b == 99, isWinSep] tail

def verbatimUncTailBytes (tail : List UInt8) : Option (List UInt8) :=
  if opensUnc tail then some (tail.drop 4) else none

def named (name : List UInt8) : Bool := name != [] && name != here && name != parent

def serverShareBytes : List (List UInt8) → Bool
  | server :: share :: _ => named server && server != [question] && named share
  | _ => false

def nextSeparator (path : List UInt8) (start : ℕ) : ℕ :=
  min (start + (path.drop start).findIdx isWinSep) path.length

def shareEnd (path : List UInt8) (server : ℕ) : ℕ :=
  nextSeparator path (nextSeparator path server + 1)

def verbatimKind (raw : List UInt8) : HeadKind :=
  let tail := raw.drop 4
  if (verbatimUncTailBytes tail).any fun rest => serverShareBytes (rest.splitOnP isWinSep) then
    .unc (raw.take (shareEnd raw 8))
  else if opens [isAsciiAlphabetic, (· == colon), isWinSep] tail then
    .drive (tail.headD 0) (raw.take 6)
  else .malformed

def doubledKind (raw : List UInt8) (mixedOpening : Bool) : HeadKind :=
  if !mixedOpening && serverShareBytes ((raw.drop 2).splitOnP isWinSep) then
    .unc (raw.take (shareEnd raw 2))
  else .malformed

def singleKind (raw : List UInt8) : HeadKind :=
  if opens [(· == slash)] raw then .posix
  else if opens [(· == backslash)] raw then .driveless
  else if opens [isAsciiAlphabetic, (· == colon), isWinSep] raw then .drive (raw.headD 0) (raw.take 2)
  else if driveShaped raw then .driveRelative (raw.headD 0)
  else .relative

/-- `\??\` -/
def opensObject (raw : List UInt8) : Bool :=
  opens [(· == backslash), (· == question), (· == question), (· == backslash)] raw

def exactPrefix (raw : List UInt8) : Bool :=
  opens [(· == backslash), (· == backslash), fun _ => true, (· == backslash)] raw

def parseWindows (raw : List UInt8) : HeadKind × HeadSpelling :=
  let opensWithSlash := opens [(· == slash)] raw
  let mixedOpening := opens [(· == slash), (· == backslash)] raw || opens [(· == backslash), (· == slash)] raw
  if opensObject raw then (.driveless, ⟨some .object, false, false⟩)
  else if opens [isWinSep, isWinSep, (· == dot), isWinSep] raw then
    (.device, ⟨some (.device (exactPrefix raw)), mixedOpening, opensWithSlash⟩)
  else if opens [isWinSep, isWinSep, (· == question), isWinSep] raw then
    (verbatimKind raw, ⟨some (.verbatim (exactPrefix raw)), mixedOpening, opensWithSlash⟩)
  else if opens [isWinSep, isWinSep] raw then
    (doubledKind raw mixedOpening, ⟨none, mixedOpening, opensWithSlash⟩)
  else (singleKind raw, ⟨none, false, opensWithSlash⟩)

def headLen (raw : List UInt8) (kind : HeadKind) (ns : Option Namespace) : ℕ :=
  match kind with
  | .posix | .driveless => 1
  | .driveRelative _ => 2
  | .relative => 0
  | .device | .malformed => raw.length
  | .drive _ volume | .unc volume =>
    if ns.any Namespace.isExact then raw.length else min (volume.length + 1) raw.length

def parseBytes (raw : List UInt8) (rules : PathRules) : Parsed :=
  let (kind, spelling) := match rules with
    | .posix => parsePosix raw
    | .windows => parseWindows raw
  ⟨raw, rules, kind, spelling, headLen raw kind spelling.ns⟩

namespace Parsed

def isRooted (p : Parsed) : Bool :=
  match p.kind with
  | .relative | .driveRelative _ => false
  | _ => true

def respellHead (p : Parsed) : Bool :=
  match p.rules with
  | .posix => true
  | .windows => p.spelling.ns.isNone &&
      match p.kind with
      | .drive _ _ | .unc _ | .driveless | .driveRelative _ | .relative => true
      | _ => false

end Parsed

/-! ## The fold -/

def foldName (rooted : Bool) (names : List (List UInt8)) (name : List UInt8) : List (List UInt8) :=
  if name = [] ∨ name = here then names
  else if name = parent ∧ (names.getLast?.any (· != parent)) = true then names.dropLast
  else if name = parent ∧ rooted = true then names
  else names ++ [name]

def foldNames (rooted : Bool) (parts : List (List UInt8)) : List (List UInt8) :=
  parts.foldl (foldName rooted) []

def respell (rules : PathRules) (b : UInt8) : UInt8 := if isSepByte rules b then separator rules else b

def guardDrive (rules : PathRules) (head : List UInt8) (names : List (List UInt8)) : List UInt8 :=
  if rules = .windows ∧ head = [] ∧ (names.head?.any driveShaped) = true then [dot, backslash] else []

def foldBytes (path : List UInt8) (rules : PathRules) : List UInt8 :=
  let parsed := parseBytes path rules
  let head := path.take parsed.headLen
  let names := foldNames parsed.isRooted ((path.drop parsed.headLen).splitOnP (isSepByte rules))
  (if parsed.respellHead then head.map (respell rules) else head) ++ guardDrive rules head names ++
    [separator rules].intercalate names

/-! ## Reading a head

Which head the opening bytes of a path spell, and what the names a fold leaves open when joined: they
hold no separator.
-/

/-! ## Openings -/

theorem opens_append {ps : List (UInt8 → Bool)} {front : List UInt8} (h : ps.length ≤ front.length)
    (more : List UInt8) : opens ps (front ++ more) = opens ps front := by
  induction ps generalizing front with
  | nil => cases front <;> rfl
  | cons p ps ih =>
    cases front with
    | nil => simp at h
    | cons b front => simp [opens, ih (Nat.le_of_succ_le_succ h)]

@[simp] theorem opens_nil (bytes : List UInt8) : opens [] bytes = true := rfl

@[simp] theorem opens_cons_nil (p : UInt8 → Bool) (ps : List (UInt8 → Bool)) : opens (p :: ps) [] = false := rfl

@[simp] theorem opens_cons_cons (p : UInt8 → Bool) (ps : List (UInt8 → Bool)) (b : UInt8) (bytes : List UInt8) :
    opens (p :: ps) (b :: bytes) = (p b && opens ps bytes) := rfl

theorem exists_of_opens_cons {p : UInt8 → Bool} {ps : List (UInt8 → Bool)} {bytes : List UInt8}
    (h : opens (p :: ps) bytes = true) : ∃ b rest, bytes = b :: rest ∧ p b = true ∧ opens ps rest = true := by
  cases bytes with
  | nil => cases h
  | cons b rest =>
    rw [opens_cons_cons, Bool.and_eq_true] at h
    exact ⟨b, rest, rfl, h⟩

/-! ## Bytes -/

theorem isWinSep_iff {b : UInt8} : isWinSep b = true ↔ b = slash ∨ b = backslash := by
  simp [isWinSep, isSepByte]

theorem isSepByte_separator (rules : PathRules) : isSepByte rules (separator rules) = true := by
  cases rules <;> rfl

theorem not_sep_of_alphabetic {b : UInt8} (h : isAsciiAlphabetic b = true) : isWinSep b = false := by
  rw [Bool.eq_false_iff]
  intro hsep
  rcases isWinSep_iff.mp hsep with rfl | rfl <;> exact absurd h (by decide)

theorem respell_of_not_sep {rules : PathRules} {b : UInt8} (h : isSepByte rules b = false) :
    respell rules b = b := by simp [respell, h]

/-! ## Names -/

/-- No separator in it. -/
def Solid (rules : PathRules) (name : List UInt8) : Prop := ∀ b ∈ name, isSepByte rules b = false

/-- A name a fold leaves. -/
structure IsName (rules : PathRules) (rooted : Bool) (name : List UInt8) : Prop where
  ne_nil : name ≠ []
  solid : Solid rules name
  kept : rooted = true → name ≠ parent

theorem solid_of_mem_splitOnP {rules : PathRules} {bytes part : List UInt8}
    (h : part ∈ bytes.splitOnP (isSepByte rules)) : Solid rules part := by
  induction bytes generalizing part with
  | nil =>
    rw [List.splitOnP_nil, List.mem_singleton] at h
    rw [h]
    exact fun _ hb => absurd hb List.not_mem_nil
  | cons b bytes ih =>
    rw [List.splitOnP_cons_eq_if_modifyHead] at h
    split at h
    · rcases List.mem_cons.mp h with h | h
      · rw [h]
        exact fun _ hb => absurd hb List.not_mem_nil
      · exact ih h
    · next hb =>
      cases hparts : bytes.splitOnP (isSepByte rules) with
      | nil =>
        rw [hparts] at h
        cases h
      | cons first more =>
        rw [hparts] at h ih
        rcases List.mem_cons.mp h with h | h
        · rw [h]
          intro c hc
          rcases List.mem_cons.mp hc with hc | hc
          · rw [hc]
            exact Bool.eq_false_iff.mpr hb
          · exact ih List.mem_cons_self c hc
        · exact ih (List.mem_cons_of_mem _ h)

theorem isName_foldName {rules : PathRules} {rooted : Bool} {names : List (List UInt8)}
    {name : List UInt8} (h : ∀ n ∈ names, IsName rules rooted n) (hname : Solid rules name) :
    ∀ n ∈ foldName rooted names name, IsName rules rooted n := by
  unfold foldName
  split
  · exact h
  next hempty =>
  split
  · exact fun n hn => h n (List.dropLast_subset _ hn)
  split
  · exact h
  · next hroot =>
    intro n hn
    rcases List.mem_append.mp hn with hn | hn
    · exact h n hn
    · rw [List.mem_singleton.mp hn]
      exact ⟨fun he => hempty (.inl he), hname, fun hr he => hroot ⟨he, hr⟩⟩

theorem foldNames_append (rooted : Bool) (parts : List (List UInt8)) (part : List UInt8) :
    foldNames rooted (parts ++ [part]) = foldName rooted (foldNames rooted parts) part := by
  simp [foldNames]

theorem isName_foldNames {rules : PathRules} {rooted : Bool} {parts : List (List UInt8)}
    (h : ∀ part ∈ parts, Solid rules part) : ∀ n ∈ foldNames rooted parts, IsName rules rooted n := by
  induction parts using List.reverseRecOn with
  | nil => exact fun _ hn => absurd hn List.not_mem_nil
  | append_singleton parts part ih =>
    rw [foldNames_append]
    apply isName_foldName
    · exact ih fun p hp => h p (List.mem_append_left _ hp)
    · exact h part (List.mem_append_right _ (List.mem_singleton_self part))

/-! ## Names joined -/

def Ends (rules : PathRules) (rest : List UInt8) : Prop :=
  rest = [] ∨ ∃ more, rest = separator rules :: more

theorem join_cons (rules : PathRules) (name : List UInt8) (names : List (List UInt8)) :
    ∃ rest, [separator rules].intercalate (name :: names) = name ++ rest ∧ Ends rules rest ∧
      (rest = [] ↔ names = []) := by
  cases names with
  | nil => exact ⟨[], by simp [List.intercalate], .inl rfl, by simp⟩
  | cons next names =>
    refine ⟨separator rules :: [separator rules].intercalate (next :: names), ?_, .inr ⟨_, rfl⟩, by simp⟩
    simp [List.intercalate]

/-- Joined names open with no separator. -/
def Bare (rules : PathRules) (bytes : List UInt8) : Prop := ∀ b ∈ bytes.head?, isSepByte rules b = false

theorem bare_join {rules : PathRules} {rooted : Bool} {names : List (List UInt8)}
    (h : ∀ n ∈ names, IsName rules rooted n) : Bare rules ([separator rules].intercalate names) := by
  cases names with
  | nil => simp [Bare, List.intercalate]
  | cons name names =>
    obtain ⟨rest, hjoin, _⟩ := join_cons rules name names
    have hname := h name List.mem_cons_self
    rw [hjoin]
    cases name with
    | nil => exact absurd rfl hname.ne_nil
    | cons b name =>
      intro c hc
      rw [← Option.some.inj hc]
      exact hname.solid b List.mem_cons_self

theorem Bare.not_opens {p : UInt8 → Bool} {ps : List (UInt8 → Bool)} {bytes : List UInt8}
    (h : Bare .windows bytes) (hp : ∀ b, p b = true → isWinSep b = true) : opens (p :: ps) bytes = false := by
  cases bytes with
  | nil => rfl
  | cons b bytes =>
    rw [opens_cons_cons, Bool.and_eq_false_iff]
    left
    rw [Bool.eq_false_iff]
    intro hb
    have hsep := hp b hb
    rw [isWinSep, h b rfl] at hsep
    cases hsep

/-! ## One separator or none -/

section Single
variable {b : UInt8} {bytes : List UInt8}

theorem parseWindows_single (hbare : Bare .windows bytes) (hobject : opensObject (b :: bytes) = false) :
    parseWindows (b :: bytes) = (singleKind (b :: bytes), ⟨none, false, b == slash⟩) := by
  have hdoubled (ps : List (UInt8 → Bool)) : opens (isWinSep :: isWinSep :: ps) (b :: bytes) = false := by
    rw [opens_cons_cons, hbare.not_opens fun _ h => h, Bool.and_false]
  simp [parseWindows, hobject, hdoubled]

theorem opensObject_of_ne (h : b ≠ backslash) : opensObject (b :: bytes) = false := by
  simp [opensObject, h]

theorem parseWindows_backslash (hbare : Bare .windows bytes) :
    (parseWindows (backslash :: bytes)).1 = .driveless ∧
      (parseWindows (backslash :: bytes)).2.ns =
        if opensObject (backslash :: bytes) then some .object else none := by
  cases hobject : opensObject (backslash :: bytes) with
  | true => simp [parseWindows, hobject]
  | false =>
    rw [parseWindows_single hbare hobject]
    exact ⟨rfl, rfl⟩

theorem parseWindows_slash (hbare : Bare .windows bytes) :
    parseWindows (slash :: bytes) = (.posix, ⟨none, false, true⟩) :=
  parseWindows_single hbare (opensObject_of_ne (by decide))

theorem parseWindows_drive (hletter : isAsciiAlphabetic b = true) :
    parseWindows (b :: colon :: bytes) =
      (if opens [isWinSep] bytes then .drive b [b, colon] else .driveRelative b, ⟨none, false, false⟩) := by
  have hsep := not_sep_of_alphabetic hletter
  have hslash : b ≠ slash := fun he => by simp [he, isWinSep_iff.mpr (.inl rfl)] at hsep
  have hback : b ≠ backslash := fun he => by simp [he, isWinSep_iff.mpr (.inr rfl)] at hsep
  have hbare : Bare .windows (colon :: bytes) := by
    intro c hc
    rw [← Option.some.inj hc]
    rfl
  rw [parseWindows_single hbare (opensObject_of_ne hback)]
  simp [singleKind, driveShaped, hslash, hback, hletter]

theorem parseWindows_relative {bytes : List UInt8} (hbare : Bare .windows bytes)
    (hdrive : driveShaped bytes = false) : parseWindows bytes = (.relative, ⟨none, false, false⟩) := by
  cases bytes with
  | nil => rfl
  | cons b bytes =>
    have hsep : isWinSep b = false := hbare b rfl
    have hslash : b ≠ slash := fun he => by simp [he, isWinSep_iff.mpr (.inl rfl)] at hsep
    have hback : b ≠ backslash := fun he => by simp [he, isWinSep_iff.mpr (.inr rfl)] at hsep
    have hfull : opens [isAsciiAlphabetic, (· == colon), isWinSep] (b :: bytes) = false := by
      cases bytes with
      | nil => simp
      | cons c bytes =>
        simp only [driveShaped, opens_cons_cons, opens_nil, Bool.and_true] at hdrive
        rw [opens_cons_cons, opens_cons_cons, ← Bool.and_assoc, hdrive, Bool.false_and]
    have hnot (p : UInt8 → Bool) (ps : List (UInt8 → Bool)) : opens (isWinSep :: p :: ps) (b :: bytes) = false := by
      rw [opens_cons_cons, hsep, Bool.false_and]
    simp [parseWindows, opensObject_of_ne hback, hnot, singleKind, hslash, hback, hfull, hdrive]

end Single

theorem driveShaped_append {name rest : List UInt8} (hne : name ≠ []) (hends : Ends .windows rest)
    (h : driveShaped (name ++ rest) = true) : driveShaped name = true := by
  match name with
  | [] => exact absurd rfl hne
  | [b] =>
    rcases hends with rfl | ⟨more, rfl⟩
    · simpa using h
    · simp [driveShaped, separator, show backslash ≠ colon by decide] at h
  | b :: c :: name => simpa [driveShaped] using h

/-! ## Server and share -/

/-- Nothing, or a separator first. -/
def Closed (rest : List UInt8) : Prop := rest = [] ∨ ∃ b more, rest = b :: more ∧ isWinSep b = true

/-- A server, a separator, a share, and then the end or another separator. -/
structure Share (server : List UInt8) (sep : UInt8) (share tail : List UInt8) : Prop where
  named : named server = true ∧ server ≠ [question] ∧ named share = true
  server : Solid .windows server
  sep : isWinSep sep = true
  share : Solid .windows share
  tail : Closed tail

section Share
variable {server share tail : List UInt8} {sep : UInt8}

theorem splitOnP_solid {name rest : List UInt8} (hname : Solid .windows name)
    (hrest : Closed rest) : ∃ more, (name ++ rest).splitOnP isWinSep = name :: more ∧
      ∀ b bytes, rest = b :: bytes → more = bytes.splitOnP isWinSep := by
  rcases hrest with rfl | ⟨b, bytes, rfl, hb⟩
  · refine ⟨[], ?_, nofun⟩
    rw [List.append_nil]
    exact List.splitOnP_eq_singleton hname
  · refine ⟨bytes.splitOnP isWinSep, ?_, ?_⟩
    · exact List.splitOnP_append_cons_of_forall_mem hname b hb bytes
    · intro c cs he
      cases he
      rfl

theorem Share.bytes (h : Share server sep share tail) :
    serverShareBytes ((server ++ sep :: (share ++ tail)).splitOnP isWinSep) = true := by
  obtain ⟨more, hsplit, hmore⟩ := splitOnP_solid h.server (.inr ⟨sep, share ++ tail, rfl, h.sep⟩)
  obtain ⟨more', hsplit', _⟩ := splitOnP_solid h.share h.tail
  rw [hsplit, hmore _ _ rfl, hsplit']
  obtain ⟨hserver, hquestion, hshare⟩ := h.named
  simp [serverShareBytes, hserver, hquestion, hshare]

theorem exists_break (bytes : List UInt8) : ∃ name rest, bytes = name ++ rest ∧ Solid .windows name ∧
    Closed rest := by
  induction bytes with
  | nil => exact ⟨[], [], rfl, nofun, .inl rfl⟩
  | cons b bytes ih =>
    cases hb : isWinSep b with
    | true => exact ⟨[], b :: bytes, rfl, nofun, .inr ⟨b, bytes, rfl, hb⟩⟩
    | false =>
      obtain ⟨name, rest, rfl, hname, hrest⟩ := ih
      refine ⟨b :: name, rest, rfl, ?_, hrest⟩
      intro c hc
      rcases List.mem_cons.mp hc with rfl | hc
      · exact hb
      · exact hname c hc

theorem exists_share {bytes : List UInt8} (h : serverShareBytes (bytes.splitOnP isWinSep) = true) :
    ∃ server sep share tail, bytes = server ++ sep :: (share ++ tail) ∧ Share server sep share tail := by
  obtain ⟨server, rest, rfl, hserver, hrest⟩ := exists_break bytes
  obtain ⟨more, hsplit, hmore⟩ := splitOnP_solid hserver hrest
  rw [hsplit] at h
  rcases hrest with rfl | ⟨sep, rest, rfl, hsep⟩
  · have hsingle : server.splitOnP isWinSep = [server] := List.splitOnP_eq_singleton hserver
    rw [List.append_nil, hsingle] at hsplit
    rw [← (List.cons.inj hsplit).2] at h
    cases h
  · obtain ⟨share, tail, rfl, hshare, htail⟩ := exists_break rest
    obtain ⟨more', hsplit', _⟩ := splitOnP_solid hshare htail
    rw [hmore _ _ rfl, hsplit'] at h
    simp only [serverShareBytes, Bool.and_eq_true, bne_iff_ne] at h
    exact ⟨server, sep, share, tail, rfl, ⟨h.1.1, h.1.2, h.2⟩, hserver, hsep, hshare, htail⟩

theorem nextSeparator_append {front name rest : List UInt8} {start : ℕ} (hfront : front.length = start)
    (hname : Solid .windows name) (hrest : Closed rest) :
    nextSeparator (front ++ (name ++ rest)) start = start + name.length := by
  have hfind : (name ++ rest).findIdx isWinSep = name.length := by
    have hnone : name.findIdx isWinSep = name.length := List.findIdx_eq_length.mpr hname
    rw [List.findIdx_append, hnone, if_neg (Nat.lt_irrefl _)]
    rcases hrest with rfl | ⟨b, more, rfl, hb⟩
    · simp
    · simp [List.findIdx_cons, hb]
  rw [nextSeparator, ← hfront, List.drop_left, hfind]
  simp only [List.length_append]
  omega

theorem Share.shareEnd (h : Share server sep share tail) {front : List UInt8} {start : ℕ}
    (hfront : front.length = start) :
    shareEnd (front ++ (server ++ sep :: (share ++ tail))) start
      = (front ++ (server ++ sep :: share)).length := by
  have hserver := nextSeparator_append hfront h.server (.inr ⟨sep, share ++ tail, rfl, h.sep⟩)
  have hsplit : front ++ (server ++ sep :: (share ++ tail)) = (front ++ (server ++ [sep])) ++ (share ++ tail) := by
    simp
  unfold Lex.shareEnd
  rw [hserver, hsplit, nextSeparator_append (by simp [hfront]; omega) h.share h.tail]
  simp [hfront]
  omega

theorem Share.volume (h : Share server sep share tail) {front : List UInt8} {start : ℕ}
    (hfront : front.length = start) :
    (front ++ (server ++ sep :: (share ++ tail))).take (Lex.shareEnd (front ++ (server ++ sep :: (share ++ tail))) start)
      = front ++ (server ++ sep :: share) := by
  rw [h.shareEnd hfront, show front ++ (server ++ sep :: (share ++ tail)) = (front ++ (server ++ sep :: share)) ++ tail by simp,
    List.take_left]

end Share

end Ral.Path.Lex
