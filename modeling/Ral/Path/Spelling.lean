import Mathlib.Data.List.Induction
import Ral.Path.Trace

/-! # Spellings

A path as a host spells it on POSIX, split into its root and its names, and the
path that spells a position.
-/

namespace Ral.Path

abbrev PathBuf : Type := List UInt8

def separator : UInt8 := 47

def dot : UInt8 := 46

/-- A single normal component: no separator in it, and not a directory's own or its parent's. -/
def Name.IsEntry (n : Name) : Prop :=
  n.bytes ≠ [] ∧ n.bytes ≠ [dot] ∧ n.bytes ≠ [dot, dot] ∧ separator ∉ n.bytes

instance (n : Name) : Decidable n.IsEntry := inferInstanceAs (Decidable (_ ∧ _ ∧ _ ∧ _))

/-- Where an entry name came from. -/
inductive Origin
  | spelled
  | spliced
deriving DecidableEq

/-- One component of a spelling past its root. -/
inductive SpelledName
  | entry (name : Name) (origin : Origin)
  | parent
deriving DecidableEq

def SpelledName.spliced : SpelledName → SpelledName
  | .entry name _ => .entry name .spliced
  | .parent => .parent

structure Spelling where
  root : Option (List Name)
  names : List SpelledName

def component (part : List UInt8) : Option SpelledName :=
  if part = [] ∨ part = [dot] then none
  else if part = [dot, dot] then some .parent
  else some (.entry ⟨part⟩ .spelled)

def split (path : PathBuf) : Spelling :=
  { root := if path.head? = some separator then some [] else none
    names := (path.splitOn separator).filterMap component }

/-- Whether a path is spelled as a directory: it ends in a separator, or in one and `.`. -/
def namesADir (path : PathBuf) : Bool :=
  let path := if path.getLast? = some dot then path.dropLast else path
  path.getLast? = some separator

def isAbsolute (path : PathBuf) : Bool := path.head? = some separator

def RealPath.asPath (p : RealPath) : PathBuf :=
  if p.names = [] then [separator] else p.names.flatMap fun n => separator :: n.bytes

/-! ## Splitting -/

theorem not_mem_splitOn {path part : List UInt8} (h : part ∈ path.splitOn separator) :
    separator ∉ part := by
  induction path generalizing part with
  | nil =>
    rw [List.splitOn_nil, List.mem_singleton] at h
    rw [h]
    exact List.not_mem_nil
  | cons b path ih =>
    rw [List.splitOn_cons_eq_if_modifyHead] at h
    split at h
    · rcases List.mem_cons.mp h with h | h
      · rw [h]
        exact List.not_mem_nil
      · exact ih h
    · next hb =>
        cases hparts : path.splitOn separator with
        | nil =>
          rw [hparts] at h
          cases h
        | cons first more =>
          rw [hparts] at h ih
          rcases List.mem_cons.mp h with h | h
          · rw [h, List.mem_cons]
            intro hm
            rcases hm with hm | hm
            · exact hb (beq_iff_eq.mpr hm.symm)
            · exact ih List.mem_cons_self hm
          · exact ih (List.mem_cons_of_mem _ h)

theorem split_isEntry {path : PathBuf} {name : Name} {origin : Origin}
    (h : .entry name origin ∈ (split path).names) : name.IsEntry := by
  rcases List.mem_filterMap.mp h with ⟨part, hpart, hname⟩
  have hsep := not_mem_splitOn hpart
  unfold component at hname
  split at hname
  · cases hname
  · next hempty =>
      split at hname
      · cases hname
      · next hparent =>
          cases hname
          exact ⟨fun he => hempty (.inl he), fun he => hempty (.inr he), hparent, hsep⟩

theorem component_entry {name : Name} (h : name.IsEntry) :
    component name.bytes = some (.entry name .spelled) := by
  rw [component, if_neg (fun hm => hm.elim h.1 h.2.1), if_neg h.2.2.1]

theorem split_cons_separator (path : List UInt8) :
    (split (separator :: path)).names = (path.splitOn separator).filterMap component := by
  have hsplit : (separator :: path).splitOn separator = [] :: path.splitOn separator :=
    List.splitOn_append_cons_self_of_not_mem List.not_mem_nil path
  rw [split, hsplit]
  rfl

theorem split_parent (path : List UInt8) :
    (split (separator :: dot :: dot :: separator :: path)).names
      = .parent :: (split (separator :: path)).names := by
  have hdots : separator ∉ [dot, dot] := by decide
  have hsplit : (dot :: dot :: separator :: path).splitOn separator
      = [dot, dot] :: path.splitOn separator :=
    List.splitOn_append_cons_self_of_not_mem hdots path
  rw [split_cons_separator, split_cons_separator, hsplit]
  rfl

/-! ## Positions spelled -/

namespace RealPath

theorem isAbsolute_asPath (p : RealPath) : isAbsolute p.asPath = true := by
  unfold asPath
  split
  · rfl
  · next h =>
      cases hnames : p.names with
      | nil => exact (h hnames).elim
      | cons n names => rfl

/-- A position's path splits into its names. -/
theorem split_asPath {p : RealPath} (h : ∀ n ∈ p.names, n.IsEntry) :
    (split p.asPath).names = p.names.map fun n => .entry n .spelled := by
  obtain ⟨root, names⟩ := p
  have hspelled : ∀ ns : List Name, (∀ n ∈ ns, n.IsEntry) →
      ∀ before : List UInt8, separator ∉ before →
        ((before ++ ns.flatMap fun n => separator :: n.bytes).splitOn separator).filterMap component
          = (component before).toList ++ ns.map fun n => .entry n .spelled := by
    intro ns
    induction ns with
    | nil =>
      intro _ before hbefore
      rw [List.flatMap_nil, List.append_nil, List.splitOn_eq_singleton hbefore,
        List.filterMap_cons]
      cases component before <;> rfl
    | cons n ns ih =>
      intro hns before hbefore
      have hn := hns n List.mem_cons_self
      have hrest := ih (fun m hm => hns m (List.mem_cons_of_mem _ hm)) n.bytes hn.2.2.2
      rw [List.flatMap_cons, List.cons_append,
        List.splitOn_append_cons_self_of_not_mem hbefore]
      rw [component_entry hn] at hrest
      rw [List.filterMap_cons, hrest]
      cases component before <;> rfl
  unfold asPath
  split
  · next hnil =>
      have hnil : names = [] := hnil
      subst hnil
      rfl
  · exact hspelled names h [] List.not_mem_nil

/-- A position but the root is not spelled as a directory. -/
theorem namesADir_asPath {p : RealPath} (h : ∀ n ∈ p.names, n.IsEntry) :
    namesADir p.asPath = decide (p.names = []) := by
  obtain ⟨root, names⟩ := p
  induction names using List.reverseRecOn with
  | nil => rfl
  | append_singleton names n _ =>
    have hn := h n (List.mem_append_right _ (List.mem_singleton_self n))
    have hpath : asPath ⟨root, names ++ [n]⟩
        = (names.flatMap fun n => separator :: n.bytes) ++ [separator] ++ n.bytes := by
      simp [asPath]
    have hne : n.bytes ≠ [] := hn.1
    have hlast : ∀ init bytes : List UInt8, bytes ≠ [] → separator ∉ bytes →
        (init ++ bytes).getLast? ≠ some separator := by
      intro init bytes hbytes hsep hm
      rw [List.getLast?_append_of_ne_nil _ hbytes] at hm
      exact hsep (List.mem_of_getLast? hm)
    rw [hpath, namesADir]
    simp only [List.append_eq_nil_iff, List.cons_ne_self, and_false, decide_false,
      decide_eq_false_iff_not]
    split
    · next hdot =>
      have hdrop : n.bytes.dropLast ≠ [] := by
        intro hnil
        rw [List.getLast?_append_of_ne_nil _ hne] at hdot
        apply hn.2.1
        rw [← List.dropLast_append_getLast? dot hdot, hnil]
        rfl
      rw [List.dropLast_append_of_ne_nil hne]
      apply hlast _ _ hdrop
      exact fun hm => hn.2.2.2 (List.dropLast_subset _ hm)
    · exact hlast _ _ hne hn.2.2.2

end RealPath

end Ral.Path
