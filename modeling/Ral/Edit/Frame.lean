import Mathlib.Data.List.Forall2
import Ral.Edit.Fresh
import Ral.Edit.Replace

/-! # What an edit leaves alone

A file's text is what its ending decodes and encodes back. The lines no edit names keep their bytes,
terminators included; but a text's rows are joined by newlines, so the last line left loses its
terminator when the rows after it are dropped.
-/

namespace Ral.Edit
open Ral.Boundary (Value)

/-! ## Decoding and encoding back -/

namespace Eol

def terminator : Eol → List Char
  | .lf => ['\n']
  | .crlf => ['\r', '\n']

variable (eol : Eol)

@[simp] theorem encode_nil : eol.encode [] = [] := by cases eol <;> rfl

@[simp] theorem encode_append (xs ys : List Char) : eol.encode (xs ++ ys) = eol.encode xs ++ eol.encode ys := by
  cases eol with
  | lf => rfl
  | crlf => simp [encode]

@[simp] theorem encode_newline (text : List Char) : eol.encode ('\n' :: text) = eol.terminator ++ eol.encode text := by
  cases eol <;> rfl

theorem encode_cons {c : Char} (h : c ≠ '\n') (text : List Char) : eol.encode (c :: text) = c :: eol.encode text := by
  cases eol with
  | lf => rfl
  | crlf => simp [encode, h]

def Returned (last : Option Char) : List Char → Prop
  | [] => True
  | c :: text => (c = '\n' → last = some '\r') ∧ Returned (some c) text

theorem Returned.restart {last : Option Char} {text : List Char} (h : Returned last text) (hhead : text.head? ≠ some '\n')
    (last' : Option Char) : Returned last' text := by
  cases text with
  | nil => trivial
  | cons c text => exact ⟨fun hc => absurd (congrArg some hc) hhead, h.2⟩

theorem encode_dropReturns (text : List Char) (h : Returned none text) :
    Eol.crlf.encode (dropReturns text) = text := by
  induction text using dropReturns.induct with
  | case1 text ih =>
    have hhead : text.head? ≠ some '\n' := by
      cases text with
      | nil => simp
      | cons c text =>
        intro hc
        have hreturn := h.2.2.1 (Option.some.inj hc)
        cases hreturn
    rw [dropReturns, encode_newline, ih (h.2.2.restart hhead none)]
    rfl
  | case2 c text hnot ih =>
    have hc : c ≠ '\n' := by
      intro hc
      cases h.1 hc
    have hhead : text.head? ≠ some '\n' := by
      cases text with
      | nil => simp
      | cons d text =>
        intro hd
        cases hd
        have hreturn := h.2.1 rfl
        cases hreturn
        exact hnot text rfl rfl
    have hdrop : dropReturns (c :: text) = c :: dropReturns text := by
      rw [dropReturns]
      intro rest hreturn htext
      exact hnot rest hreturn htext
    rw [hdrop, encode_cons _ hc, ih (h.2.restart hhead none)]
  | case3 => rfl

end Eol

theorem feed_wide {wide : List UInt8} (h : ∀ b ∈ wide, 128 ≤ b.toNat) (scan : EolScan) :
    (wide.foldl EolScan.feed scan).lf = scan.lf ∧ (wide.foldl EolScan.feed scan).bareLf = scan.bareLf ∧
      (wide ≠ [] → (wide.foldl EolScan.feed scan).last ≠ some 13) := by
  induction wide using List.reverseRecOn with
  | nil => exact ⟨rfl, rfl, fun hne => absurd rfl hne⟩
  | append_singleton wide b ih =>
    have hb : 128 ≤ b.toNat := h b (List.mem_append_right _ (List.mem_singleton_self b))
    obtain ⟨hlf, hbare, -⟩ := ih fun b hb => h b (List.mem_append_left _ hb)
    have hnewline : b ≠ 10 := by
      rintro rfl
      revert hb
      decide
    rw [List.foldl_append]
    refine ⟨?_, ?_, ?_⟩
    · simp [EolScan.feed, hlf, hnewline]
    · simp [EolScan.feed, hbare, hnewline]
    · intro _ hlast
      cases Option.some.inj hlast
      revert hb
      decide

theorem feed_bytes {text : List Char} {scan : EolScan} {last : Option Char} (hlast : scan.last = some 13 → last = some '\r')
    (h : ((Text.bytes text).foldl EolScan.feed scan).bareLf = false) :
    scan.bareLf = false ∧ Eol.Returned last text := by
  induction text generalizing scan last with
  | nil => exact ⟨h, trivial⟩
  | cons c text ih =>
    rw [Text.bytes_cons, List.foldl_append] at h
    by_cases hc : c.toNat < 128
    · rw [Text.encode_ascii hc] at h
      have hnext : (scan.feed (UInt8.ofNat c.toNat)).last = some 13 → some c = some '\r' := by
        intro hreturn
        have hbyte : UInt8.ofNat c.toNat = UInt8.ofNat '\r'.toNat := Option.some.inj hreturn
        rw [(Text.ascii_inj hc (by decide)).mp hbyte]
      obtain ⟨hbare, hrest⟩ := ih hnext h
      simp only [EolScan.feed, Bool.or_eq_false_iff, Bool.and_eq_false_imp, decide_eq_true_eq, decide_eq_false_iff_not,
        not_not] at hbare
      refine ⟨hbare.1, ?_, hrest⟩
      rintro rfl
      exact hlast (hbare.2 rfl)
    · have hwide : ∀ b ∈ String.utf8EncodeChar c, 128 ≤ b.toNat := fun b hb => Text.encode_wide (Nat.not_lt.mp hc) hb
      obtain ⟨-, hbare, hnot⟩ := feed_wide hwide scan
      have hnext : ((String.utf8EncodeChar c).foldl EolScan.feed scan).last = some 13 → some c = some '\r' :=
        fun hreturn => absurd hreturn (hnot String.utf8EncodeChar_ne_nil)
      obtain ⟨hscan, hrest⟩ := ih hnext h
      rw [hbare] at hscan
      refine ⟨hscan, ?_, hrest⟩
      rintro rfl
      exact absurd (by decide) hc

theorem encode_decode (text : List Char) :
    (Eol.of (Text.bytes text)).encode ((Eol.of (Text.bytes text)).decode text) = text := by
  unfold Eol.of
  dsimp only
  split
  · next hcrlf =>
    have hbare := (Bool.and_eq_true_iff.mp hcrlf).2
    rw [Bool.not_eq_true'] at hbare
    have hlast : (⟨false, false, none⟩ : EolScan).last = some 13 → none = some '\r' := by
      intro hreturn
      cases hreturn
    exact Eol.encode_dropReturns text (feed_bytes hlast hbare).2
  · rfl

theorem fromUTF8?_eq_some {bytes : List UInt8} {text : String} (h : String.fromUTF8? ⟨bytes.toArray⟩ = some text) :
    bytes = Text.bytes text.toList := by
  unfold String.fromUTF8? at h
  split at h
  · cases h
    have hbytes := String.utf8Encode_toList (b := String.fromUTF8 ⟨bytes.toArray⟩ ‹_›)
    have hdata := congrArg (fun b : ByteArray => b.data.toList) hbytes
    rw [List.utf8Encode] at hdata
    simp only [List.toList_data_toByteArray] at hdata
    exact hdata.symm
  · cases h

theorem readTextFile_eq_ok {path tool : String} {opened : Opened} {eol : Eol} {body : List Char}
    (h : readTextFile path tool opened = .ok (eol, body)) : ∃ bytes, opened = .bytes bytes ∧ eol = Eol.of bytes ∧
      bytes = Text.bytes (eol.encode body) := by
  cases opened with
  | bytes bytes =>
    simp only [readTextFile] at h
    split at h
    · cases h
    · next text htext =>
      cases h
      have hbytes := fromUTF8?_eq_some htext
      refine ⟨bytes, rfl, rfl, ?_⟩
      rw [hbytes, encode_decode]
  | _ => cases h

/-! ## Lines -/

/-- The lines of a file, each with its terminator but the last, which is empty after a final newline. -/
def linesOf : List UInt8 → List (List UInt8)
  | [] => [[]]
  | b :: bytes => if b = 10 then [b] :: linesOf bytes else (linesOf bytes).modifyHead (b :: ·)

/-- The rows each line of a text becomes: itself where it is not named, none where it is dropped. -/
def replaced (named : ℕ → Option (List Char)) (rows : List (List Char)) : List (List (List Char)) :=
  rows.mapIdx fun i row =>
    match named i with
    | none => [row]
    | some new => if new = [] then [] else rowsOf new

/-- The bytes of each group of rows, a terminator wherever a row follows. -/
def laid (eol : Eol) : List (List (List Char)) → List (List UInt8)
  | [] => []
  | group :: rest =>
    let text := ['\n'].intercalate group
    (Text.bytes (eol.encode text) ++ if group ≠ [] ∧ rest.flatten ≠ [] then Text.bytes eol.terminator else []) ::
      laid eol rest

section Laid
variable {eol : Eol}

theorem bytes_terminator (eol : Eol) : ∃ front, Text.bytes eol.terminator = front ++ [10] ∧ 10 ∉ front := by
  cases eol with
  | lf => exact ⟨[], by decide, by decide⟩
  | crlf => exact ⟨[13], by decide, by decide⟩

theorem linesOf_append {front : List UInt8} (h : 10 ∉ front) (bytes : List UInt8) :
    linesOf (front ++ bytes) = (linesOf bytes).modifyHead (front ++ ·) := by
  induction front with
  | nil =>
    cases hlines : linesOf bytes with
    | nil => simp [hlines]
    | cons line lines => simp [hlines]
  | cons b front ih =>
    have hb : b ≠ 10 := fun hb => h (hb ▸ List.mem_cons_self)
    rw [List.cons_append, linesOf, if_neg hb, ih fun hmem => h (List.mem_cons_of_mem _ hmem), List.modifyHead_modifyHead]
    rfl

theorem linesOf_terminated (eol : Eol) {front : List UInt8} (h : 10 ∉ front) (bytes : List UInt8) :
    linesOf (front ++ (Text.bytes eol.terminator ++ bytes)) = (front ++ Text.bytes eol.terminator) :: linesOf bytes := by
  obtain ⟨returns, hterminator, hreturns⟩ := bytes_terminator eol
  have hfront : 10 ∉ front ++ returns := by
    rw [List.mem_append]
    rintro (hmem | hmem)
    · exact h hmem
    · exact hreturns hmem
  rw [hterminator, List.append_assoc, ← List.append_assoc front, linesOf_append hfront]
  simp [linesOf]

theorem newline_not_mem_bytes {row : List Char} (h : '\n' ∉ row) : 10 ∉ Text.bytes row := by
  intro hmem
  obtain ⟨c, hc, hb⟩ := List.mem_flatMap.mp hmem
  by_cases hascii : c.toNat < 128
  · rw [Text.encode_ascii hascii, List.mem_singleton] at hb
    have hbyte : UInt8.ofNat '\n'.toNat = UInt8.ofNat c.toNat := hb
    rw [← (Text.ascii_inj (by decide) hascii).mp hbyte] at hc
    exact h hc
  · have hwide := Text.encode_wide (Nat.not_lt.mp hascii) hb
    revert hwide
    decide

theorem encode_row (eol : Eol) {row : List Char} (h : '\n' ∉ row) : eol.encode row = row := by
  induction row with
  | nil => exact eol.encode_nil
  | cons c row ih =>
    have hc : c ≠ '\n' := fun hc => h (hc ▸ List.mem_cons_self)
    rw [eol.encode_cons hc, ih fun hmem => h (List.mem_cons_of_mem _ hmem)]

theorem newline_not_mem_rows {text row : List Char} (h : row ∈ rowsOf text) : '\n' ∉ row := by
  induction text generalizing row with
  | nil =>
    rw [rowsOf, List.splitOn_nil, List.mem_singleton] at h
    rw [h]
    exact List.not_mem_nil
  | cons c text ih =>
    rw [rowsOf, List.splitOn_cons_eq_if_modifyHead] at h
    split at h
    · rcases List.mem_cons.mp h with rfl | hmem
      · exact List.not_mem_nil
      · exact ih hmem
    · next hc =>
      obtain ⟨first, rest, hrows⟩ := List.exists_cons_of_ne_nil (List.splitOn_ne_nil '\n' text)
      have hmem {row : List Char} (h : row ∈ first :: rest) : '\n' ∉ row := ih (by rwa [rowsOf, hrows])
      rw [hrows, List.modifyHead_cons] at h
      rcases List.mem_cons.mp h with rfl | hrest
      · intro hnewline
        rcases List.mem_cons.mp hnewline with rfl | hnewline
        · exact hc (beq_self_eq_true _)
        · exact hmem List.mem_cons_self hnewline
      · exact hmem (List.mem_cons_of_mem _ hrest)

theorem rowsOf_ne_nil (text : List Char) : rowsOf text ≠ [] := List.splitOn_ne_nil _ _

theorem intercalate_append {α : Type} (sep : List α) {xs ys : List (List α)} (hx : xs ≠ []) (hy : ys ≠ []) :
    sep.intercalate (xs ++ ys) = sep.intercalate xs ++ (sep ++ sep.intercalate ys) := by
  induction xs with
  | nil => exact absurd rfl hx
  | cons x xs ih =>
    cases xs with
    | nil =>
      rw [List.singleton_append, List.intercalate_cons_of_ne_nil hy, List.intercalate_singleton, List.append_assoc]
    | cons x' xs =>
      rw [List.cons_append, List.intercalate_cons_of_ne_nil (List.append_ne_nil_of_right_ne_nil _ hy),
        ih (List.cons_ne_nil _ _), List.intercalate_cons_cons]
      simp

theorem flatten_laid (eol : Eol) (groups : List (List (List Char))) :
    (laid eol groups).flatten = Text.bytes (eol.encode (['\n'].intercalate groups.flatten)) := by
  induction groups with
  | nil => simp [laid]
  | cons group rest ih =>
    rw [laid, List.flatten_cons, ih, List.flatten_cons]
    cases group with
    | nil => simp
    | cons row group =>
      cases hrest : rest.flatten with
      | nil => simp
      | cons row' rest' =>
        rw [if_pos ⟨List.cons_ne_nil _ _, List.cons_ne_nil _ _⟩,
          intercalate_append _ (List.cons_ne_nil _ _) (List.cons_ne_nil _ _)]
        simp

theorem getElem?_laid (eol : Eol) (groups : List (List (List Char))) (i : ℕ) : (laid eol groups)[i]? =
    groups[i]?.map fun group => Text.bytes (eol.encode (['\n'].intercalate group)) ++
      if group ≠ [] ∧ (groups.drop (i + 1)).flatten ≠ [] then Text.bytes eol.terminator else [] := by
  induction groups generalizing i with
  | nil => rfl
  | cons group rest ih =>
    cases i with
    | zero => rfl
    | succ i =>
      rw [laid, List.getElem?_cons_succ, ih]
      rfl

theorem length_laid (eol : Eol) (groups : List (List (List Char))) : (laid eol groups).length = groups.length := by
  induction groups with
  | nil => rfl
  | cons group rest ih => rw [laid, List.length_cons, List.length_cons, ih]

theorem linesOf_laid (eol : Eol) {rows : List (List Char)} (hne : rows ≠ []) (h : ∀ row ∈ rows, '\n' ∉ row) :
    linesOf (Text.bytes (eol.encode (['\n'].intercalate rows))) = laid eol (rows.map fun row => [row]) := by
  induction rows with
  | nil => exact absurd rfl hne
  | cons row rows ih =>
    have hrow := newline_not_mem_bytes (h row List.mem_cons_self)
    have hencode := encode_row eol (h row List.mem_cons_self)
    cases rows with
    | nil =>
      have hlines := linesOf_append hrow []
      simp [linesOf] at hlines
      simp [laid, hencode, hlines]
    | cons row' rows =>
      have hrest := ih (List.cons_ne_nil _ _) fun row hmem => h row (List.mem_cons_of_mem _ hmem)
      rw [List.intercalate_cons_cons, List.append_assoc, Eol.encode_append, hencode, List.singleton_append,
        Eol.encode_newline, Text.bytes_append, Text.bytes_append, linesOf_terminated eol hrow, hrest]
      simp [laid, hencode]

/-- A group in place of each row, one of no rows where it is dropped. -/
theorem flatten_replaced_eq_nil {named : ℕ → Option (List Char)} {rows : List (List Char)} {k : ℕ} :
    ((replaced named rows).drop k).flatten = [] ↔ ∀ j < rows.length, k ≤ j → named j = some [] := by
  rw [List.flatten_eq_nil_iff]
  constructor
  · intro h j hj hk
    have hat : (replaced named rows)[j]? = some (match named j with
        | none => [rows[j]]
        | some new => if new = [] then [] else rowsOf new) := by
      rw [replaced, List.getElem?_mapIdx, List.getElem?_eq_getElem hj]
      rfl
    have hmem := h _ (List.mem_of_getElem? (i := j - k) (by rw [List.getElem?_drop, Nat.add_sub_cancel' hk]; exact hat))
    split at hmem
    · cases hmem
    · next new hnamed =>
      split at hmem
      · next hnil => rw [hnamed, hnil]
      · exact absurd hmem (rowsOf_ne_nil new)
  · intro h group hgroup
    obtain ⟨i, hi⟩ := List.getElem?_of_mem hgroup
    rw [List.getElem?_drop, replaced, List.getElem?_mapIdx] at hi
    obtain ⟨row, hrow, hi⟩ := Option.map_eq_some_iff.mp hi
    have hlt : k + i < rows.length := (List.getElem?_eq_some_iff.mp hrow).1
    rw [h (k + i) hlt (Nat.le_add_right k i)] at hi
    simpa using hi.symm

end Laid

def Exposed (named : ℕ → Option (List Char)) (rows : List (List Char)) (i : ℕ) : Prop :=
  i + 1 < rows.length ∧ ∀ j < rows.length, i + 1 ≤ j → named j = some []

/-- The bytes of a file are its lines as they stood where no edit names them; the last line left loses
its terminator when the lines after it are dropped. -/
structure Keeps (eol : Eol) (named : ℕ → Option (List Char)) (rows : List (List Char)) (before after : List UInt8) : Prop where
  length : (linesOf before).length = rows.length
  lines : ∃ pieces : List (List UInt8), after = pieces.flatten ∧ pieces.length = rows.length ∧
    ∀ (i : ℕ) (line : List UInt8), (linesOf before)[i]? = some line → named i = none → ∃ piece, pieces[i]? = some piece ∧
      (¬ Exposed named rows i → piece = line) ∧ (Exposed named rows i → line = piece ++ Text.bytes eol.terminator)

theorem keeps_replaced (eol : Eol) (named : ℕ → Option (List Char)) (body : List Char) :
    Keeps eol named (rowsOf body) (Text.bytes (eol.encode body))
      (Text.bytes (eol.encode (['\n'].intercalate (replaced named (rowsOf body)).flatten))) := by
  have hlines : linesOf (Text.bytes (eol.encode body)) = laid eol ((rowsOf body).map fun row => [row]) := by
    have hbody : ['\n'].intercalate (rowsOf body) = body := List.intercalate_splitOn '\n'
    have hlaid := linesOf_laid eol (rowsOf_ne_nil body) fun row hrow => newline_not_mem_rows hrow
    rwa [hbody] at hlaid
  constructor
  case length => rw [hlines, length_laid, List.length_map]
  case lines =>
    refine ⟨laid eol (replaced named (rowsOf body)), (flatten_laid _ _).symm, ?_, ?_⟩
    · rw [length_laid, replaced, List.length_mapIdx]
    · intro i line hline hnamed
      rw [hlines, getElem?_laid, List.getElem?_map] at hline
      obtain ⟨group, hgroup, rfl⟩ := Option.map_eq_some_iff.mp hline
      obtain ⟨row, hrow, rfl⟩ := Option.map_eq_some_iff.mp hgroup
      have hpiece : (replaced named (rowsOf body))[i]? = some [row] := by
        rw [replaced, List.getElem?_mapIdx, hrow, hnamed]
        rfl
      have hrest : (((rowsOf body).map fun row => [row]).drop (i + 1)).flatten ≠ [] ↔ i + 1 < (rowsOf body).length := by
        rw [← List.map_drop, ← List.flatMap_def, List.flatMap_singleton', ne_eq, List.drop_eq_nil_iff]
        omega
      have hleft : ((replaced named (rowsOf body)).drop (i + 1)).flatten = [] ↔
          ∀ j < (rowsOf body).length, i + 1 ≤ j → named j = some [] := flatten_replaced_eq_nil
      have hone : [row] ≠ [] := List.cons_ne_nil _ _
      refine ⟨Text.bytes (eol.encode (['\n'].intercalate [row])) ++
        if [row] ≠ [] ∧ ((replaced named (rowsOf body)).drop (i + 1)).flatten ≠ [] then Text.bytes eol.terminator else [],
        ?_, ?_, ?_⟩
      · rw [getElem?_laid, hpiece, Option.map_some]
      · intro hnot
        by_cases hlast : i + 1 < (rowsOf body).length
        · have hmore : ((replaced named (rowsOf body)).drop (i + 1)).flatten ≠ [] :=
            fun hnil => hnot ⟨hlast, hleft.mp hnil⟩
          rw [if_pos ⟨hone, hmore⟩, if_pos ⟨hone, hrest.mpr hlast⟩]
        · have hnil : ((replaced named (rowsOf body)).drop (i + 1)).flatten = [] :=
            hleft.mpr fun j hj hk => absurd (Nat.lt_of_le_of_lt hk hj) hlast
          rw [if_neg fun h => h.2 hnil, if_neg fun h => hlast (hrest.mp h.2)]
      · intro hexposed
        have hnil := hleft.mpr hexposed.2
        rw [if_pos ⟨hone, hrest.mpr hexposed.1⟩, if_neg fun h => h.2 hnil, List.append_nil]

/-! ## Edits by witness -/

def namedBy (resolved : List ResolvedEdit) (i : ℕ) : Option (List Char) :=
  (resolved.find? fun r => r.line = i).map ResolvedEdit.new

section Resolved
variable {resolved resolved' : List ResolvedEdit}

theorem rebuild_eq (rows : List (List Char)) (resolved : List ResolvedEdit) :
    rebuild rows resolved = (replaced (namedBy resolved) rows).flatten := by
  refine (List.flatMap_def ..).trans (congrArg List.flatten ?_)
  rw [replaced, List.mapIdx_eq_zipIdx_map]
  apply List.map_congr_left
  intro row _
  dsimp only
  rw [namedBy]
  cases resolved.find? fun r => decide (r.line = row.2) <;> rfl

theorem doubled_eq_none : doubled resolved = none ↔ (resolved.map ResolvedEdit.line).Nodup := by
  induction resolved with
  | nil => simp [doubled]
  | cons r rest ih =>
    rw [doubled, List.map_cons, List.nodup_cons, ← ih]
    split
    · next hany =>
      obtain ⟨other, hother, hline⟩ := List.any_eq_true.mp hany
      have hmem : r.line ∈ rest.map ResolvedEdit.line := by
        rw [← of_decide_eq_true hline]
        exact List.mem_map_of_mem hother
      simp [hmem]
    · next hany =>
      have hnot : r.line ∉ rest.map ResolvedEdit.line := by
        intro hmem
        obtain ⟨other, hother, hline⟩ := List.mem_map.mp hmem
        exact hany (List.any_eq_true.mpr ⟨other, hother, decide_eq_true hline⟩)
      simp [hnot]

theorem namedBy_eq_some (h : (resolved.map ResolvedEdit.line).Nodup) {i : ℕ} {new : List Char} :
    namedBy resolved i = some new ↔ ⟨i, new⟩ ∈ resolved := by
  induction resolved with
  | nil => simp [namedBy]
  | cons r rest ih =>
    obtain ⟨hnot, hrest⟩ := List.nodup_cons.mp h
    by_cases hline : r.line = i
    · rw [namedBy, List.find?_cons_of_pos (by simpa using hline), Option.map_some, Option.some.injEq, List.mem_cons]
      constructor
      · rintro rfl
        left
        rw [← hline]
      · rintro (hhere | hthere)
        · rw [← hhere]
        · exact absurd (List.mem_map_of_mem hthere) (hline ▸ hnot)
    · have hne : (⟨i, new⟩ : ResolvedEdit) ≠ r := fun heq => hline (congrArg ResolvedEdit.line heq).symm
      rw [List.mem_cons, or_iff_right hne, ← ih hrest, namedBy, namedBy, List.find?_cons_of_neg (by simpa using hline)]

theorem namedBy_perm (h : (resolved.map ResolvedEdit.line).Nodup) (hperm : resolved.Perm resolved') :
    namedBy resolved = namedBy resolved' := by
  have h' : (resolved'.map ResolvedEdit.line).Nodup := (hperm.map _).nodup_iff.mp h
  funext i
  apply Option.ext
  intro new
  rw [namedBy_eq_some h, namedBy_eq_some h', hperm.mem_iff]

end Resolved

section Hashes
variable [Digest] {path edits : Value} {files : String → Opened}

/-- An edit is what its records, each resolved against the text as read, make of it. -/
theorem editHash_eq_ok {edited : Edited} : editHash path edits files = .ok edited ↔
    ∃ p items eol body resolved, path = .string p ∧ edits = .list items ∧ items ≠ [] ∧
      readTextFile p "edit-hash" (files p) = .ok (eol, body) ∧
      List.Forall₂ (fun e res => resolve p (windowHashes (rowsOf body)) e = .ok res) items resolved ∧
      (resolved.map ResolvedEdit.line).Nodup ∧
      edited = ⟨resolved, body, ['\n'].intercalate (rebuild (rowsOf body) resolved),
        eol.encode (['\n'].intercalate (rebuild (rowsOf body) resolved)), noteEdit p resolved⟩ := by
  constructor
  · intro h
    unfold editHash at h
    obtain ⟨p, hp, hrest⟩ := Fallible.bind_eq_ok.mp h
    cases path with
    | string s =>
      cases hp
      cases edits with
      | list items =>
        cases items with
        | nil => cases hrest
        | cons e items =>
          obtain ⟨⟨eol, body⟩, hread, hrest⟩ := Fallible.bind_eq_ok.mp hrest
          obtain ⟨resolved, hresolved, hrest⟩ := Fallible.bind_eq_ok.mp hrest
          split at hrest
          · cases hrest
          · next hdoubled =>
            cases hrest
            exact ⟨p, e :: items, eol, body, resolved, rfl, rfl, List.cons_ne_nil _ _, hread,
              Fallible.mapM_eq_ok.mp hresolved, doubled_eq_none.mp hdoubled, rfl⟩
      | _ => cases hrest
    | _ => cases hp
  · rintro ⟨p, items, eol, body, resolved, rfl, rfl, hne, hread, hresolved, hnodup, rfl⟩
    obtain ⟨e, items, rfl⟩ := List.exists_cons_of_ne_nil hne
    refine Fallible.bind_eq_ok.mpr ⟨p, rfl, ?_⟩
    refine Fallible.bind_eq_ok.mpr ⟨(eol, body), hread, ?_⟩
    refine Fallible.bind_eq_ok.mpr ⟨resolved, Fallible.mapM_eq_ok.mpr hresolved, ?_⟩
    rw [doubled_eq_none.mpr hnodup]

theorem editHash_perm {items items' : List Value} (hperm : items.Perm items') {edited : Edited}
    (h : editHash path (.list items) files = .ok edited) :
    ∃ edited', editHash path (.list items') files = .ok edited' ∧ edited'.written = edited.written := by
  obtain ⟨p, _, eol, body, resolved, rfl, ⟨⟩, hne, hread, hresolved, hnodup, rfl⟩ := editHash_eq_ok.mp h
  obtain ⟨resolved', hresolved', hperm'⟩ := List.perm_comp_forall₂ hperm.symm hresolved
  have hnodup' : (resolved'.map ResolvedEdit.line).Nodup := (hperm'.map _).nodup_iff.mpr hnodup
  have hne' : items' ≠ [] := by
    rintro rfl
    exact hne hperm.eq_nil
  refine ⟨_, editHash_eq_ok.mpr ⟨p, items', eol, body, resolved', rfl, rfl, hne', hread, hresolved', hnodup', rfl⟩, ?_⟩
  dsimp only
  rw [rebuild_eq, rebuild_eq, namedBy_perm hnodup' hperm']

end Hashes

/-! ## The one occurrence -/

theorem editReplace_eq_ok {path pattern replacement : Value} {files : String → Opened} {edit : Replaced}
    (h : editReplace path pattern replacement files = .ok edit) :
    ∃ p old new eol front rest, path = .string p ∧ pattern = .string old ∧ replacement = .string new ∧
      readTextFile p "edit-replace" (files p) = .ok (eol, front ++ old.toList ++ rest) ∧ old.toList ≠ [] ∧
      (∀ front' rest', front ++ old.toList ++ rest = front' ++ old.toList ++ rest' → front' = front) ∧
      edit.written = eol.encode (front ++ new.toList ++ rest) := by
  unfold editReplace at h
  obtain ⟨p, hp, hrest⟩ := Fallible.bind_eq_ok.mp h
  obtain ⟨old, hold, hrest⟩ := Fallible.bind_eq_ok.mp hrest
  obtain ⟨new, hnew, hrest⟩ := Fallible.bind_eq_ok.mp hrest
  split at hrest
  · cases hrest
  · next hne =>
    obtain ⟨⟨eol, body⟩, hread, hrest⟩ := Fallible.bind_eq_ok.mp hrest
    dsimp only at hrest
    split at hrest
    · next start hstarts =>
      cases hrest
      obtain ⟨front, rest, hfind, honly⟩ := occurrenceStarts_one hne hstarts
      have hbody : body = front ++ old.toList ++ rest := by
        rw [(find_eq_some hfind).1, List.append_assoc]
      have hfinal : replaceFirst body old.toList new.toList = front ++ new.toList ++ rest := by
        rw [replaceFirst, hfind]
        dsimp only
        rw [List.drop_left]
      cases path with
      | string s =>
        cases hp
        cases pattern with
        | string s' =>
          cases hold
          cases replacement with
          | string s'' =>
            cases hnew
            refine ⟨p, old, new, eol, front, rest, rfl, rfl, rfl, ?_, hne, ?_, ?_⟩
            · rw [hread, hbody]
            · intro front' rest' heq
              exact honly front' rest' (hbody.trans heq)
            · rw [hfinal]
          | _ => cases hnew
        | _ => cases hold
      | _ => cases hp
    · cases hrest

/-! ## Edits of a file -/

namespace Store
variable {store store' : Store}

/-- An edit is made and written, or the store is as it was. -/
theorem commit_cases {Edit : Type} (store : Store) (tool : String) (path : Value) (edit : Except String Edit)
    (written : Edit → List Char) :
    (∃ why, store.commit tool path edit written = (.error why, store)) ∨
      ∃ p made, path = .string p ∧ edit = .ok made ∧ store.commit tool path edit written =
        (.ok made, { store with read := Function.update store.read p (.bytes (Text.bytes (written made))) }) := by
  cases path with
  | string p =>
    cases edit with
    | error why => exact .inl ⟨why, rfl⟩
    | ok made =>
      simp only [commit, asStr, atomicWrite]
      cases store.stage p with
      | error why => exact .inl ⟨why, rfl⟩
      | ok _ =>
        cases store.fill p with
        | error why => exact .inl ⟨why, rfl⟩
        | ok _ =>
          cases store.publish p with
          | error why => exact .inl ⟨why, rfl⟩
          | ok _ => exact .inr ⟨p, made, rfl, rfl, rfl⟩
  | _ => exact .inl ⟨_, rfl⟩

/-- Edits that are made alike and write the same leave the same store. -/
theorem commit_congr {Edit : Type} (store : Store) (tool : String) (path : Value) {edit edit' : Except String Edit}
    {written : Edit → List Char} (h : ∀ made, edit = .ok made → ∃ made', edit' = .ok made' ∧ written made' = written made)
    (h' : ∀ made', edit' = .ok made' → ∃ made, edit = .ok made ∧ written made = written made') :
    (store.commit tool path edit written).2 = (store.commit tool path edit' written).2 ∧
      (store.commit tool path edit written).1.isOk = (store.commit tool path edit' written).1.isOk := by
  cases path with
  | string p =>
    cases edit with
    | error why =>
      cases edit' with
      | error why' => exact ⟨rfl, rfl⟩
      | ok made' =>
        obtain ⟨made, hmade, -⟩ := h' made' rfl
        cases hmade
    | ok made =>
      obtain ⟨made', rfl, hwritten⟩ := h made rfl
      simp only [commit, asStr, hwritten]
      rcases store.atomicWrite p (written made) with ⟨landed, store'⟩
      cases landed with
      | error why => exact ⟨rfl, rfl⟩
      | ok _ => exact ⟨rfl, rfl⟩
  | _ => exact ⟨rfl, rfl⟩

/-- `store'` is `store` but that the file reads as these bytes. -/
def Writes (store : Store) (path : String) (bytes : List UInt8) (store' : Store) : Prop :=
  store' = { store with read := Function.update store.read path (.bytes bytes) }

/-- The file's rows are those it had with each row a record's witness names replaced; the bytes of the
others are as they were. -/
def Rewrites [Digest] (store : Store) (path edits : Value) (store' : Store) : Prop :=
  ∃ p items before eol body named new, path = .string p ∧ edits = .list items ∧ store.read p = .bytes before ∧
    eol = Eol.of before ∧ readTextFile p "edit-hash" (store.read p) = .ok (eol, body) ∧
    (∀ i text, named i = some text ↔ ∃ e ∈ items, resolve p (windowHashes (rowsOf body)) e = .ok ⟨i, text⟩) ∧
    ((replaced named (rowsOf body)).flatten ≠ [] → rowsOf new = (replaced named (rowsOf body)).flatten) ∧
    ((replaced named (rowsOf body)).flatten = [] → new = []) ∧
    Keeps eol named (rowsOf body) before (Text.bytes (eol.encode new)) ∧
    store.Writes p (Text.bytes (eol.encode new)) store'

/-- The file's bytes are those it had but for the only occurrence of the pattern. -/
def Replaces (store : Store) (path pattern replacement : Value) (store' : Store) : Prop :=
  ∃ p old new before eol front rest, path = .string p ∧ pattern = .string old ∧ replacement = .string new ∧
    store.read p = .bytes before ∧ eol = Eol.of before ∧
    readTextFile p "edit-replace" (store.read p) = .ok (eol, front ++ old.toList ++ rest) ∧
    (∀ front' rest', front ++ old.toList ++ rest = front' ++ old.toList ++ rest' → front' = front) ∧
    before = Text.bytes (eol.encode front) ++ Text.bytes (eol.encode old.toList) ++ Text.bytes (eol.encode rest) ∧
    store.Writes p
      (Text.bytes (eol.encode front) ++ Text.bytes (eol.encode new.toList) ++ Text.bytes (eol.encode rest)) store'

theorem newline_not_mem_replaced {named : ℕ → Option (List Char)} {body row : List Char}
    (h : row ∈ (replaced named (rowsOf body)).flatten) : '\n' ∉ row := by
  obtain ⟨group, hgroup, hrow⟩ := List.mem_flatten.mp h
  obtain ⟨i, hi⟩ := List.getElem?_of_mem hgroup
  rw [replaced, List.getElem?_mapIdx] at hi
  obtain ⟨old, hold, rfl⟩ := Option.map_eq_some_iff.mp hi
  split at hrow
  · rw [List.mem_singleton.mp hrow]
    exact newline_not_mem_rows (List.mem_of_getElem? hold)
  · split at hrow
    · cases hrow
    · exact newline_not_mem_rows hrow

theorem rewrites_of_ok [Digest] {path edits : Value} {edited : Edited} {p : String} (hp : path = .string p)
    (h : editHash path edits store.read = .ok edited) (hwrites : store.Writes p (Text.bytes edited.written) store') :
    store.Rewrites path edits store' := by
  obtain ⟨p', items, eol, body, resolved, rfl, rfl, -, hread, hresolved, hnodup, rfl⟩ := editHash_eq_ok.mp h
  cases hp
  obtain ⟨before, hbefore, heol, hbytes⟩ := readTextFile_eq_ok hread
  refine ⟨p, items, before, eol, body, namedBy resolved, _, rfl, rfl, hbefore, heol, hread, ?_, ?_, ?_, ?_, hwrites⟩
  · intro i text
    rw [namedBy_eq_some hnodup]
    constructor
    · exact Fallible.forall₂_mem_right hresolved
    · rintro ⟨e, he, hresolve⟩
      obtain ⟨res, hres, hresolve'⟩ := Fallible.forall₂_mem_left hresolved he
      rw [hresolve, Except.ok.injEq] at hresolve'
      rwa [hresolve']
  · intro hne
    rw [rebuild_eq]
    exact List.splitOn_intercalate '\n' (fun row hrow => newline_not_mem_replaced hrow) hne
  · intro hnil
    rw [rebuild_eq, hnil]
    rfl
  · rw [hbytes, rebuild_eq]
    exact keeps_replaced eol (namedBy resolved) body

theorem replaces_of_ok {path pattern replacement : Value} {edit : Replaced} {p : String} (hp : path = .string p)
    (h : editReplace path pattern replacement store.read = .ok edit)
    (hwrites : store.Writes p (Text.bytes edit.written) store') : store.Replaces path pattern replacement store' := by
  obtain ⟨p', old, new, eol, front, rest, rfl, rfl, rfl, hread, -, honly, hwritten⟩ := editReplace_eq_ok h
  cases hp
  obtain ⟨before, hbefore, heol, hbytes⟩ := readTextFile_eq_ok hread
  refine ⟨p, old, new, before, eol, front, rest, rfl, rfl, rfl, hbefore, heol, hread, honly, ?_, ?_⟩
  · simp [hbytes]
  · rw [hwritten] at hwrites
    simpa using hwrites

/-- An edit refused leaves the files as they were. An `edit-hash` writes the rows with each one named
replaced, whatever the order of its records, and an `edit-replace` all but the only occurrence; and a
text decoded by its own ending encodes back to its bytes. -/
theorem edits_keep_what_they_do_not_name [Digest] (store : Store) :
    (∀ path edits, match store.builtinEditHash path edits with
      | (.error _, store') => store' = store
      | (.ok _, store') => store.Rewrites path edits store') ∧
    (∀ path (items items' : List Value), items.Perm items' →
      (store.builtinEditHash path (.list items)).2 = (store.builtinEditHash path (.list items')).2 ∧
      (store.builtinEditHash path (.list items)).1.isOk = (store.builtinEditHash path (.list items')).1.isOk) ∧
    (∀ path pattern replacement, match store.builtinEditReplace path pattern replacement with
      | (.error _, store') => store' = store
      | (.ok _, store') => store.Replaces path pattern replacement store') ∧
    ∀ text, Text.bytes ((Eol.of (Text.bytes text)).encode ((Eol.of (Text.bytes text)).decode text)) = Text.bytes text := by
  refine ⟨?_, ?_, ?_, ?_⟩
  · intro path edits
    obtain ⟨why, hrefused⟩ | ⟨p, edited, hp, hedit, hcommit⟩ :=
      store.commit_cases "edit-hash" path (editHash path edits store.read) Edited.written
    · rw [builtinEditHash, hrefused]
    · rw [builtinEditHash, hcommit]
      exact rewrites_of_ok hp hedit rfl
  · intro path items items' hperm
    refine store.commit_congr _ _ ?_ ?_
    · intro edited hedit
      exact editHash_perm hperm hedit
    · intro edited hedit
      exact editHash_perm hperm.symm hedit
  · intro path pattern replacement
    obtain ⟨why, hrefused⟩ | ⟨p, edit, hp, hedit, hcommit⟩ :=
      store.commit_cases "edit-replace" path (editReplace path pattern replacement store.read) Replaced.written
    · rw [builtinEditReplace, hrefused]
    · rw [builtinEditReplace, hcommit]
      exact replaces_of_ok hp hedit rfl
  · intro text
    rw [encode_decode]

end Store

/-! ## A batch of two, and the last row dropped -/

def Store.holding (text : String) : Store where
  read _ := .bytes text.toByteArray.data.toList
  stage _ := .ok ()
  fill _ := .ok ()
  publish _ := .ok ()

def record (hash line : String) : Value := .map [("hash", .string hash), ("line", .string line)]

theorem resolve_record {p hash : String} {hashes : List (List Char)} {i : ℕ} (h : matching hashes hash = [i])
    (line : String) : resolve p hashes (record hash line) = .ok ⟨i, line.toList⟩ := by
  refine Fallible.bind_eq_ok.mpr ⟨hash, rfl, ?_⟩
  refine Fallible.bind_eq_ok.mpr ⟨line, rfl, ?_⟩
  rw [h]

theorem editHash_of_lines {resolved : List ResolvedEdit} {records : List Value} (hne : records ≠ [])
    (hresolved : List.Forall₂ (fun e res => resolve "f" (@windowHashes tinyDigest [['a'], ['b']]) e = .ok res)
      records resolved) (hnodup : (resolved.map ResolvedEdit.line).Nodup) :
    ∃ edited, @editHash tinyDigest (.string "f") (.list records) (Store.holding "a\nb").read = .ok edited ∧
      edited.resolved = resolved ∧ edited.written = ['\n'].intercalate (rebuild [['a'], ['b']] resolved) := by
  let _ := tinyDigest
  have hread : readTextFile "f" "edit-hash" ((Store.holding "a\nb").read "f") = .ok (.lf, "a\nb".toList) :=
    readTextFile_text "a\nb"
  exact ⟨_, editHash_eq_ok.mpr ⟨"f", records, .lf, "a\nb".toList, resolved, rfl, rfl, hne, hread, hresolved, hnodup, rfl⟩,
    rfl, rfl⟩

theorem edits_of_both_lines : ∃ records : List Value,
    ((@Store.builtinEditHash (.holding "a\nb") tinyDigest (.string "f") (.list records)).1.isOk = true) ∧
      (@Store.builtinEditHash (.holding "a\nb") tinyDigest (.string "f") (.list records)).2 =
        (@Store.builtinEditHash (.holding "a\nb") tinyDigest (.string "f") (.list records.reverse)).2 := by
  let _ := tinyDigest
  have hfirst : matching (windowHashes [['a'], ['b']]) "h5b52f6" = [0] := by decide +kernel
  have hsecond : matching (windowHashes [['a'], ['b']]) "h99253e" = [1] := by decide +kernel
  obtain ⟨edited, hedit, -, -⟩ := editHash_of_lines (List.cons_ne_nil _ _)
    (.cons (resolve_record hfirst "c\nd") (.cons (resolve_record hsecond "e") .nil)) (by decide)
  refine ⟨[record "h5b52f6" "c\nd", record "h99253e" "e"], ?_, ?_⟩
  · rw [Store.builtinEditHash, hedit]
    rfl
  · exact ((Store.edits_keep_what_they_do_not_name (.holding "a\nb")).2.1 (.string "f") _ _
      (List.reverse_perm _).symm).1

/-- The last row dropped, the line before it loses its terminator, though no record names it. -/
theorem dropped_row_takes_terminator : ∃ (edited : Edited) (store' : Store),
    @Store.builtinEditHash (.holding "a\nb") tinyDigest (.string "f") (.list [record "h99253e" ""]) = (.ok edited, store') ∧
      namedBy edited.resolved 0 = none ∧ (linesOf "a\nb".toByteArray.data.toList)[0]? = some [97, 10] ∧
      store'.read "f" = .bytes [97] ∧ ¬ [97, 10] <:+: ([97] : List UInt8) := by
  let _ := tinyDigest
  have hlast : matching (windowHashes [['a'], ['b']]) "h99253e" = [1] := by decide +kernel
  obtain ⟨edited, hedit, hresolved, hwritten⟩ := editHash_of_lines (List.cons_ne_nil _ _)
    (.cons (resolve_record hlast "") .nil) (by decide)
  refine ⟨edited, _, by rw [Store.builtinEditHash, hedit]; rfl, ?_, ?_, ?_, ?_⟩
  · rw [hresolved]
    rfl
  · decide +kernel
  · rw [hwritten]
    rfl
  · decide

end Ral.Edit
