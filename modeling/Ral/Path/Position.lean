import Mathlib.Data.List.Lex
import Mathlib.Data.Prod.Lex
import Mathlib.Order.Lattice

/-! # Positions and path identity

A position is an absolute path with no link, `.` or `..` in it, held as the
components its host reads it by. Containment compares components under one of
two identities: names as stored for a positive reading, names under their
collision key for a negative one. On macOS a position also answers to its
firmlink twin, so containment tries every alias of both sides.
-/

namespace Ral.Path

/-! ## Names -/

/-- One name, in the encoding of its host. -/
structure Name where
  bytes : List UInt8
deriving DecidableEq

instance : LinearOrder Name :=
  LinearOrder.lift' (fun n => n.bytes.map UInt8.toNat) fun a b h => by
    cases a; cases b; simpa [List.map_inj_right, UInt8.toNat_inj] using h

/-- The text of a name; `none` where it is not Unicode. -/
def Name.toStr (n : Name) : Option String := String.fromUTF8? ⟨n.bytes.toArray⟩

def Name.ofStr (s : String) : Name := ⟨s.toUTF8.data.toList⟩

inductive Os
  | linux
  | macos
  | windows
deriving DecidableEq

inductive PathRules
  | posix
  | windows
deriving DecidableEq

/-- The build target, with the Unicode folding it takes from its ICU tables. -/
class Host where
  os : Os
  foldUnicode : String → String

variable [Host]

def Host.rules : PathRules :=
  match Host.os with
  | .windows => .windows
  | _ => .posix

def isAscii (s : String) : Bool := s.toList.all fun c => c.toNat < 128

def toAsciiLowercase (s : String) : String := String.ofList (s.toList.map Char.toLower)

def collisionFold (s : String) : String :=
  if isAscii s then toAsciiLowercase s else Host.foldUnicode s

def encodedCollisionKey (n : Name) : Name :=
  match n.toStr with
  | some s => Name.ofStr (collisionFold s)
  | none => n

def windowsExecExtensions : List String := ["com", "exe", "bat", "cmd"]

/-- The text before the last `.` and after it. -/
def rsplitOnceDot (s : String) : Option (String × String) :=
  match s.toList.reverse.span (· != '.') with
  | (ext, '.' :: stem) => some (String.ofList stem.reverse, String.ofList ext.reverse)
  | _ => none

def nameKeyOn (name : String) : PathRules → String
  | .posix => name
  | .windows =>
    let lower := toAsciiLowercase name
    match rsplitOnceDot lower with
    | some (stem, ext) => if ext ∈ windowsExecExtensions then stem else lower
    | none => lower

def commandNameKey (name : String) : String :=
  collisionFold (nameKeyOn name Host.rules)

/-! ## Positions -/

/-- `root` holds the components of the head as they are stored: none for `/`,
the lower-cased drive, or a share's server and name. -/
structure RealPath where
  root : List Name
  names : List Name
deriving DecidableEq

instance : LinearOrder RealPath :=
  LinearOrder.lift' (fun p => toLex (p.root, p.names)) fun a b h => by
    cases a; cases b; simpa using h

namespace RealPath

def components (p : RealPath) : List Name := p.root ++ p.names

def child (p : RealPath) (name : Name) : RealPath := { p with names := p.names ++ [name] }

def name (p : RealPath) : Option String := p.names.getLast?.bind Name.toStr

end RealPath

/-! ## Firmlinks -/

def privateName : Name := Name.ofStr "private"

def firmNames : List Name := ["var", "tmp", "etc"].map Name.ofStr

def firmlinks : List (List Name × List Name) :=
  match Host.os with
  | .macos => firmNames.map fun n => ([n], [privateName, n])
  | _ => []

def stripPrefix (pre l : List Name) : Option (List Name) :=
  if pre.isPrefixOf l then some (l.drop pre.length) else none

def firmlinkToggle (p : List Name) : Option (List Name) :=
  firmlinks.findSome? fun (firm, canon) =>
    ((stripPrefix canon p).map (firm ++ ·)).or ((stripPrefix firm p).map (canon ++ ·))

def pathAliases (p : List Name) : List (List Name) :=
  p :: (firmlinkToggle p).toList

/-! ## Containment -/

inductive Identity
  | stored
  | collision
deriving DecidableEq

def key : Identity → Name → Name
  | .stored => id
  | .collision => encodedCollisionKey

def withinOne (p q : List Name) (identity : Identity) : Bool :=
  (q.map (key identity)).isPrefixOf (p.map (key identity))

def pathWithin (path pre : List Name) (identity : Identity) : Bool :=
  (pathAliases path).any fun p => (pathAliases pre).any fun q => withinOne p q identity

namespace RealPath

def contains (self other : RealPath) : Bool :=
  pathWithin other.components self.components .stored

end RealPath

inductive Depth
  | within
  | exact
deriving DecidableEq

/-- How an exclusion matched, in citation order: the least is cited. -/
inductive MatchedBy
  | name
  | foldedName
  | identity
deriving DecidableEq

def MatchedBy.rank : MatchedBy → ℕ
  | .name => 0
  | .foldedName => 1
  | .identity => 2

instance : LinearOrder MatchedBy :=
  LinearOrder.lift' MatchedBy.rank fun a b => by cases a <;> cases b <;> simp [MatchedBy.rank]

def RealPath.holds (self path : RealPath) (depth : Depth) (identity : Identity) : Bool :=
  pathWithin path.components self.components identity &&
    (depth == .within || pathWithin self.components path.components identity)

def RealPath.matchedBy (self path : RealPath) (depth : Depth) : Option MatchedBy :=
  if self.holds path depth .stored then some .name
  else if self.holds path depth .collision then some .foldedName
  else none

/-! ## The canonical spelling

Stored containment is a prefix test on canonical spellings, the firmlinked
names below `/private`. Its laws are those of list prefixes. -/

def canonical (p : List Name) : List Name :=
  match Host.os, p with
  | .macos, n :: rest => if n ∈ firmNames then privateName :: n :: rest else p
  | _, _ => p

omit [Host] in
theorem privateName_not_firm : privateName ∉ firmNames := by decide

theorem canonical_of_not_macos (ho : Host.os ≠ .macos) (p : List Name) :
    canonical p = p := by
  unfold canonical
  split
  · next hm => exact (ho hm).elim
  · rfl

theorem canonical_mono {p q : List Name} (hq : q <+: p) :
    canonical q <+: canonical p := by
  by_cases ho : Host.os = .macos
  · cases q with
    | nil => simp [canonical]
    | cons n q =>
      obtain ⟨t, rfl⟩ := hq
      by_cases hn : n ∈ firmNames <;> simp [canonical, ho, hn]
  · simpa only [canonical_of_not_macos ho] using hq

theorem firmlinkToggle_of_not_macos (ho : Host.os ≠ .macos) (p : List Name) :
    firmlinkToggle p = none := by
  have hf : firmlinks = [] := by
    unfold firmlinks
    split
    · next hm => exact (ho hm).elim
    · rfl
  simp [firmlinkToggle, hf]

omit [Host] in
theorem stripPrefix_eq_some {pre l rest : List Name} (hs : stripPrefix pre l = some rest) :
    l = pre ++ rest := by
  unfold stripPrefix at hs
  split at hs
  · next hp =>
      obtain ⟨t, rfl⟩ := List.isPrefixOf_iff_prefix.mp hp
      simpa [eq_comm] using hs
  · cases hs

omit [Host] in
theorem stripPrefix_append (pre rest : List Name) : stripPrefix pre (pre ++ rest) = some rest := by
  simp [stripPrefix]

theorem firmlinkToggle_spec {p p' : List Name} (ht : firmlinkToggle p = some p') :
    Host.os = .macos ∧ ∃ n ∈ firmNames, ∃ rest,
      (p = n :: rest ∧ p' = privateName :: n :: rest) ∨
        (p = privateName :: n :: rest ∧ p' = n :: rest) := by
  by_cases ho : Host.os = .macos
  · refine ⟨ho, ?_⟩
    obtain ⟨⟨firm, canon⟩, hmem, hsome⟩ := List.exists_of_findSome?_eq_some ht
    simp only [firmlinks, ho, List.mem_map, Prod.mk.injEq] at hmem
    obtain ⟨n, hn, rfl, rfl⟩ := hmem
    refine ⟨n, hn, ?_⟩
    rcases Option.or_eq_some_iff.mp hsome with hc | ⟨-, hf⟩
    · obtain ⟨rest, hr, rfl⟩ := Option.map_eq_some_iff.mp hc
      exact ⟨rest, .inr ⟨stripPrefix_eq_some hr, rfl⟩⟩
    · obtain ⟨rest, hr, rfl⟩ := Option.map_eq_some_iff.mp hf
      exact ⟨rest, .inl ⟨stripPrefix_eq_some hr, rfl⟩⟩
  · simp [firmlinkToggle_of_not_macos ho] at ht

theorem canonical_toggle {p p' : List Name} (ht : firmlinkToggle p = some p') :
    canonical p' = canonical p := by
  obtain ⟨ho, n, hn, rest, ⟨rfl, rfl⟩ | ⟨rfl, rfl⟩⟩ := firmlinkToggle_spec ht <;>
    simp [canonical, ho, hn, privateName_not_firm]

theorem canonical_alias {p q : List Name} (hq : q ∈ pathAliases p) :
    canonical q = canonical p := by
  rcases List.mem_cons.mp hq with rfl | hq
  · rfl
  · exact canonical_toggle (by simpa using hq)

theorem firmlinkToggle_firm (ho : Host.os = .macos) {n : Name} (hn : n ∈ firmNames)
    (rest : List Name) : firmlinkToggle (n :: rest) = some (privateName :: n :: rest) := by
  have hsome : (firmlinkToggle (n :: rest)).isSome := by
    refine List.findSome?_isSome_iff.mpr ⟨([n], [privateName, n]), ?_, ?_⟩
    · simp only [firmlinks, ho, List.mem_map]
      exact ⟨n, hn, rfl⟩
    · have hs : stripPrefix [n] (n :: rest) = some rest := stripPrefix_append [n] rest
      rw [Option.isSome_or, hs]
      simp
  obtain ⟨p', hp'⟩ := Option.isSome_iff_exists.mp hsome
  obtain ⟨-, n', -, rest', ⟨he, rfl⟩ | ⟨he, rfl⟩⟩ := firmlinkToggle_spec hp'
  · rw [hp', he]
  · exact (privateName_not_firm ((List.cons.inj he).1 ▸ hn)).elim

theorem canonical_mem_pathAliases (p : List Name) :
    canonical p ∈ pathAliases p := by
  by_cases ho : Host.os = .macos
  · cases p with
    | nil => simp [canonical, pathAliases]
    | cons n rest =>
      by_cases hn : n ∈ firmNames
      · simp [canonical, ho, hn, pathAliases, firmlinkToggle_firm ho hn]
      · simp [canonical, ho, hn, pathAliases]
  · simp [canonical_of_not_macos ho, pathAliases]

theorem pathWithin_stored (path pre : List Name) :
    pathWithin path pre .stored = true ↔ canonical pre <+: canonical path := by
  simp only [pathWithin, withinOne, key, List.map_id, List.any_eq_true,
    List.isPrefixOf_iff_prefix]
  constructor
  · rintro ⟨p, hp, q, hq, hpq⟩
    simpa [canonical_alias hp, canonical_alias hq] using canonical_mono hpq
  · intro hpre
    exact ⟨_, canonical_mem_pathAliases path, _, canonical_mem_pathAliases pre, hpre⟩

/-! ## Laws of stored containment -/

namespace RealPath

theorem contains_iff (p q : RealPath) :
    p.contains q = true ↔ canonical p.components <+: canonical q.components :=
  pathWithin_stored _ _

@[simp] theorem contains_refl (p : RealPath) : p.contains p = true :=
  (contains_iff p p).mpr (List.prefix_refl _)

theorem contains_trans {p q r : RealPath} (hpq : p.contains q = true)
    (hqr : q.contains r = true) : p.contains r = true := by
  rw [contains_iff] at *
  exact hpq.trans hqr

theorem contains_nested {p q r : RealPath} (hpr : p.contains r = true)
    (hqr : q.contains r = true) : p.contains q = true ∨ q.contains p = true := by
  simp only [contains_iff] at *
  exact List.prefix_or_prefix_of_prefix hpr hqr

end RealPath

end Ral.Path
