import Ral.Core.Fallible
import Ral.Core.Lines
import Ral.Core.Text
import Ral.Data.FOValue
import Ral.Edit.Witness
import Ral.Schedule.Field

/-! # Replacing the one occurrence

`edit-replace` counts the occurrences of its pattern, overlapping ones too, and replaces the only one.
An edit's text is staged beside the file and published over it, or the file stays as it was.
-/

namespace Ral.Edit
open Ral.Boundary (Value)

/-! ## Occurrences -/

section Occurrences
variable (pattern : List Char)

/-- What stands before the first occurrence, and what from it on. -/
def find : List Char → Option (List Char × List Char)
  | [] => if pattern = [] then some ([], []) else none
  | c :: text =>
    if pattern <+: c :: text then some ([], c :: text)
    else (find text).map fun (before, rest) => (c :: before, rest)

variable {pattern}

theorem find_eq_some {text before rest : List Char} (h : find pattern text = some (before, rest)) :
    text = before ++ rest ∧ pattern <+: rest := by
  induction text generalizing before with
  | nil =>
    simp only [find] at h
    split at h
    · next hnil =>
      cases h
      rw [hnil]
      exact ⟨rfl, List.prefix_refl _⟩
    · cases h
  | cons c text ih =>
    simp only [find] at h
    split at h
    · next hpattern =>
      cases h
      exact ⟨rfl, hpattern⟩
    · cases hfind : find pattern text with
      | none =>
        rw [hfind] at h
        cases h
      | some found =>
        rw [hfind] at h
        cases h
        obtain ⟨htext, hpattern⟩ := ih hfind
        refine ⟨?_, hpattern⟩
        rw [List.cons_append, ← htext]

end Occurrences

/-- The offsets of the occurrences in what stands from `i` on. The search goes on past the first
character of each, where the pattern's first character ends. -/
def startsFrom (pattern : List Char) (i : ℕ) (text : List Char) : List ℕ :=
  match _h : find pattern text with
  | none => []
  | some (before, []) => [i + Text.size before]
  | some (before, c :: rest) =>
    (i + Text.size before) :: startsFrom pattern (i + Text.size before + c.utf8Size) rest
termination_by text.length
decreasing_by
  rw [(find_eq_some _h).1, List.length_append, List.length_cons]
  omega

def occurrenceStarts (input pattern : List Char) : List ℕ := startsFrom pattern 0 input

section Starts
variable {pattern : List Char}

theorem find_none {text : List Char} (h : find pattern text = none) {front rest : List Char}
    (htext : text = front ++ rest) : ¬ pattern <+: rest := by
  induction text generalizing front with
  | nil =>
    obtain ⟨rfl, rfl⟩ := List.append_eq_nil_iff.mp htext.symm
    simp only [find] at h
    split at h
    · cases h
    · next hne =>
      intro hpattern
      exact hne (List.prefix_nil.mp hpattern)
  | cons c text ih =>
    simp only [find] at h
    split at h
    · cases h
    · next hhere =>
      cases front with
      | nil =>
        rw [List.nil_append] at htext
        rwa [← htext]
      | cons d front =>
        exact ih (Option.map_eq_none_iff.mp h) (List.cons.inj htext).2

/-- Nothing stands before the first occurrence. -/
theorem find_first {text before rest : List Char} (h : find pattern text = some (before, rest)) {front rest' : List Char}
    (htext : text = front ++ rest') (hpattern : pattern <+: rest') : before.length ≤ front.length := by
  induction text generalizing before front with
  | nil =>
    have hlength := congrArg List.length (find_eq_some h).1
    rw [List.length_append, List.length_nil] at hlength
    omega
  | cons c text ih =>
    simp only [find] at h
    split at h
    · cases h
      exact Nat.zero_le _
    · next hhere =>
      obtain ⟨⟨before', rest''⟩, hfind, hbefore⟩ := Option.map_eq_some_iff.mp h
      cases hbefore
      cases front with
      | nil =>
        rw [List.nil_append] at htext
        rw [← htext] at hpattern
        exact absurd hpattern hhere
      | cons d front =>
        have hle := ih hfind (List.cons.inj htext).2
        exact Nat.succ_le_succ hle

theorem startsFrom_none {i : ℕ} {text : List Char} (h : find pattern text = none) : startsFrom pattern i text = [] := by
  rw [startsFrom]
  split
  · rfl
  · next hfound =>
    rw [h] at hfound
    cases hfound
  · next hfound =>
    rw [h] at hfound
    cases hfound

theorem startsFrom_some {i : ℕ} {text before rest : List Char} {c : Char}
    (h : find pattern text = some (before, c :: rest)) : startsFrom pattern i text =
      (i + Text.size before) :: startsFrom pattern (i + Text.size before + c.utf8Size) rest := by
  rw [startsFrom]
  split
  · next hfound =>
    rw [h] at hfound
    cases hfound
  · next hfound =>
    rw [h] at hfound
    cases hfound
  · next hfound =>
    rw [h] at hfound
    cases hfound
    rfl

/-- The offsets are those at which the pattern stands. -/
theorem mem_startsFrom (hne : pattern ≠ []) {i : ℕ} {text : List Char} {start : ℕ} :
    start ∈ startsFrom pattern i text ↔
      ∃ front rest, text = front ++ rest ∧ pattern <+: rest ∧ start = i + Text.size front := by
  cases hfind : find pattern text with
  | none =>
    rw [startsFrom_none hfind]
    constructor
    · intro hmem
      cases hmem
    · rintro ⟨front, rest, htext, hpattern, -⟩
      exact absurd hpattern (find_none hfind htext)
  | some found =>
    obtain ⟨before, rest⟩ := found
    obtain ⟨htext, hpattern⟩ := find_eq_some hfind
    cases rest with
    | nil => exact absurd (List.prefix_nil.mp hpattern) hne
    | cons c rest =>
      have hshorter : rest.length < text.length := by
        rw [htext, List.length_append, List.length_cons]
        omega
      rw [startsFrom_some hfind, List.mem_cons, mem_startsFrom hne]
      constructor
      · rintro (rfl | ⟨front, rest', hrest, hpattern', rfl⟩)
        · exact ⟨before, c :: rest, htext, hpattern, rfl⟩
        · refine ⟨before ++ c :: front, rest', ?_, hpattern', ?_⟩
          · rw [htext, hrest, List.append_assoc, List.cons_append]
          · rw [Text.size_append, Text.size_cons]
            omega
      · rintro ⟨front, rest', htext', hpattern', rfl⟩
        have hle := find_first hfind htext' hpattern'
        obtain ⟨between, hfront, hbetween⟩ | ⟨between, hfront, hbetween⟩ :=
          List.append_eq_append_iff.mp (htext.symm.trans htext')
        · cases between with
          | nil =>
            left
            rw [hfront, List.append_nil]
          | cons d between =>
            right
            obtain ⟨rfl, hrest⟩ := List.cons.inj hbetween
            refine ⟨between, rest', hrest, hpattern', ?_⟩
            rw [hfront, Text.size_append, Text.size_cons]
            omega
        · left
          have hnil : between = [] := by
            rw [hfront, List.length_append] at hle
            exact List.length_eq_zero_iff.mp (by omega)
          rw [hfront, hnil, List.append_nil]
termination_by text.length

theorem front_eq_of_size {front rest front' rest' : List Char} (h : front ++ rest = front' ++ rest')
    (hsize : Text.size front = Text.size front') : front = front' := by
  obtain ⟨between, rfl, -⟩ | ⟨between, rfl, -⟩ := List.append_eq_append_iff.mp h
  · rw [Text.size_append] at hsize
    have hlength := Text.length_le_size between
    have hnil : between = [] := List.length_eq_zero_iff.mp (by omega)
    rw [hnil, List.append_nil]
  · rw [Text.size_append] at hsize
    have hlength := Text.length_le_size between
    have hnil : between = [] := List.length_eq_zero_iff.mp (by omega)
    rw [hnil, List.append_nil]

/-- One offset counted is one occurrence. -/
theorem occurrenceStarts_one (hne : pattern ≠ []) {input : List Char} {start : ℕ}
    (h : occurrenceStarts input pattern = [start]) : ∃ front rest, find pattern input = some (front, pattern ++ rest) ∧
      ∀ front' rest', input = front' ++ pattern ++ rest' → front' = front := by
  have hmem : start ∈ startsFrom pattern 0 input := by
    rw [occurrenceStarts] at h
    rw [h]
    exact List.mem_singleton_self start
  cases hfind : find pattern input with
  | none =>
    rw [startsFrom_none hfind] at hmem
    cases hmem
  | some found =>
    obtain ⟨front, rest⟩ := found
    obtain ⟨htext, rest, rfl⟩ := find_eq_some hfind
    have hone {front' rest' : List Char} (htext' : input = front' ++ rest') (hpattern : pattern <+: rest') :
        start = Text.size front' := by
      have hmem' := (mem_startsFrom hne (i := 0)).mpr ⟨front', rest', htext', hpattern, rfl⟩
      rw [occurrenceStarts] at h
      rw [h, List.mem_singleton] at hmem'
      omega
    refine ⟨front, rest, rfl, ?_⟩
    intro front' rest' htext'
    rw [List.append_assoc] at htext'
    have hsize := hone htext (List.prefix_append pattern rest)
    have hsize' := hone htext' (List.prefix_append pattern rest')
    exact front_eq_of_size (htext'.symm.trans htext) (hsize'.symm.trans hsize)

end Starts

def replaceFirst (input pattern replacement : List Char) : List Char :=
  match find pattern input with
  | none => input
  | some (before, rest) => before ++ replacement ++ rest.drop pattern.length

/-! ## `edit-replace` -/

def suspectEscapeLetters : List Char := ['n', 't', 'r', '0', '\\', '\'', '"']

def hasSuspiciousEscapes (text : List Char) : Bool :=
  let bytes := Text.bytes text
  (bytes.zip bytes.tail).any fun (b, next) => b = 92 && suspectEscapeLetters.contains (Char.ofNat next.toNat)

def lineOf (body : List Char) (start : ℕ) : ℕ := ((Text.bytes body).take start).count 10 + 1

def lines (text : List Char) : List (List Char) :=
  (Lines.pieces '\n' text).map fun piece =>
    if piece.getLast? = some '\n' then
      if piece.dropLast.getLast? = some '\r' then piece.dropLast.dropLast else piece.dropLast
    else piece

/-- The line equal to the pattern's first line that is not blank, once both are trimmed, but indented
differently. -/
def unindentedMatch (body pattern : List Char) : Option ℕ := do
  let raw ← (lines pattern).find? fun l => Schedule.trim l ≠ []
  let i ← (lines body).findIdx? fun l => Schedule.trim l = Schedule.trim raw && l ≠ raw
  return i + 1

def namedOnce : List ℕ → List ℕ
  | line :: line' :: lines => if line = line' then namedOnce (line' :: lines) else line :: namedOnce (line' :: lines)
  | lines => lines

/-- Why the pattern named no single occurrence. -/
def noUniqueMatch (body pattern : List Char) (path : String) (starts : List ℕ) : String :=
  if 1 < starts.length then
    let lines := namedOnce (starts.map (lineOf body))
    "edit-replace: FROM matches " ++ toString starts.length ++ " times in " ++ path ++ ", on " ++
      Data.plural lines.length "line" ++ ": " ++ ", ".intercalate (lines.map toString) ++
      "; must match exactly once. Widen FROM with a neighbouring line to make it unique, or change every " ++
      "occurrence by composing string-replace / re-replace-all over from-string and to-string."
  else if hasSuspiciousEscapes pattern then
    "edit-replace: FROM was not found in " ++ path ++ ", and FROM carries a literal backslash " ++
      "escape: ral strings are verbatim, so \\n is a backslash and an n. Write real " ++
      "newlines inside a raw #'…'# string."
  else
    match unindentedMatch body pattern with
    | some line =>
      "edit-replace: FROM was not found in " ++ path ++ ", but line " ++ toString line ++
        " matches it apart from leading whitespace: copy the exact text, indentation included, from view-text-around."
    | none =>
      "edit-replace: FROM was not found in " ++ path ++
        "; is the file already what you intended? Re-read it with view-text-around before editing."

/-- The text before and after, what is written and what it says on stderr. -/
structure Replaced where
  old : List Char
  new : List Char
  written : List Char
  note : String

/-- The lines an occurrence at `start` covers. A pattern that ends in a newline claims nothing of the
line after it. -/
def noteRange (path : String) (body pattern : List Char) (start : ℕ) : String :=
  let first := lineOf body start
  let last := first + pattern.count '\n' - if pattern.getLast? = some '\n' then 1 else 0
  let lines := if first = last then toString first else toString first ++ "-" ++ toString last
  let word := if first ≠ last then "lines" else "line"
  "[EXARCH] Replaced " ++ word ++ " " ++ lines ++ " of " ++ path ++ ".\n"

def editReplace (path pattern replacement : Value) (files : String → Opened) : Except String Replaced := do
  let path ← asStr "edit-replace" path
  let pattern ← asStr "edit-replace" pattern
  let replacement ← asStr "edit-replace" replacement
  if pattern.toList = [] then .error "edit-replace: FROM must be non-empty."
  else
    let (eol, body) ← readTextFile path "edit-replace" (files path)
    match occurrenceStarts body pattern.toList with
    | [start] =>
      let final := replaceFirst body pattern.toList replacement.toList
      .ok ⟨body, final, eol.encode final, noteRange path body pattern.toList start⟩
    | starts => .error (noUniqueMatch body pattern.toList path starts)

/-! ## Writing -/

/-- The files as they read, and what staging a write beside each, filling it and renaming it over the
file come to. -/
structure Store where
  read : String → Opened
  stage : String → Except String Unit
  fill : String → Except String Unit
  publish : String → Except String Unit

namespace Store
variable (store : Store)

/-- Overwrites a regular file: what was staged is dropped where a step fails. -/
def atomicWrite (path : String) (text : List Char) : Except String Unit × Store :=
  match store.stage path with
  | .error why => (.error why, store)
  | .ok _ =>
    match store.fill path with
    | .error why => (.error why, store)
    | .ok _ =>
      match store.publish path with
      | .error why => (.error why, store)
      | .ok _ => (.ok (), { store with read := Function.update store.read path (.bytes (Text.bytes text)) })

def commit {Edit : Type} (tool : String) (path : Value) (edit : Except String Edit) (written : Edit → List Char) :
    Except String Edit × Store :=
  match asStr tool path, edit with
  | .error why, _ => (.error why, store)
  | .ok _, .error why => (.error why, store)
  | .ok path, .ok edit =>
    match store.atomicWrite path (written edit) with
    | (.error why, store) => (.error why, store)
    | (.ok _, store) => (.ok edit, store)

def builtinEditHash [Digest] (path edits : Value) : Except String Edited × Store :=
  store.commit "edit-hash" path (editHash path edits store.read) Edited.written

def builtinEditReplace (path pattern replacement : Value) : Except String Replaced × Store :=
  store.commit "edit-replace" path (editReplace path pattern replacement store.read) Replaced.written

end Store

end Ral.Edit
