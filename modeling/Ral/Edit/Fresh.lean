import Mathlib.Data.List.Flatten
import Ral.Core.Fallible
import Ral.Edit.Witness
import Ral.Edit.Naming

/-! # A witness accepted names the line viewed

Witnesses of one text are distinct. One accepted on another text names a line with the same lines
around it; but a line named by its index is taken at that index, whatever stands there.
-/

namespace Ral.Edit
open Ral.Boundary (Value)

section

variable [Digest]

/-! ## What is hashed -/

/-- The lines of a text and the bodies of its witnesses. -/
def hashed (rows : List (List Char)) : List (List Char) :=
  let lh := rows.map lineHash
  rows ++ (named lh).mapIdx fun i how => body lh i how

def Apart (texts : List (List Char)) : Prop :=
  ∀ s ∈ texts, ∀ t ∈ texts, Digest.hex (trimEnd s) = Digest.hex (trimEnd t) → trimEnd s = trimEnd t

section Hashed
variable {rows rows' : List (List Char)} {i j : ℕ}

theorem Apart.lineHash {texts : List (List Char)} (h : Apart texts) {s t : List Char} (hs : s ∈ texts) (ht : t ∈ texts)
    (heq : lineHash s = lineHash t) : trimEnd s = trimEnd t :=
  h s hs t ht (List.cons.inj heq).2

theorem length_windowHashes (rows : List (List Char)) : (windowHashes rows).length = rows.length := by
  rw [windowHashes, List.length_mapIdx, (named_by (lineHash_marked rows)).1, List.length_map]

theorem windowHashes_named (hi : i < rows.length) : ∃ how, (named (rows.map lineHash))[i]? = some how ∧
    NamedBy (rows.map lineHash) i how ∧ (windowHashes rows)[i]? = some (lineHash (body (rows.map lineHash) i how)) ∧
    body (rows.map lineHash) i how ∈ hashed rows := by
  have hlength : i < (rows.map lineHash).length := by simpa using hi
  obtain ⟨how, hhow, hnamed⟩ := (named_by (lineHash_marked rows)).2 i hlength
  refine ⟨how, hhow, hnamed, ?_, ?_⟩
  · rw [windowHashes, List.getElem?_mapIdx, hhow]
    rfl
  · apply List.mem_append_right
    apply List.mem_of_getElem? (i := i)
    rw [List.getElem?_mapIdx, hhow]
    rfl

theorem body_eq_of_hash {texts : List (List Char)} (apart : Apart texts) (hrows : hashed rows ⊆ texts)
    (hrows' : hashed rows' ⊆ texts) (hi : i < rows.length) (hj : j < rows'.length)
    (h : (windowHashes rows)[i]? = (windowHashes rows')[j]?) : ∃ how,
      NamedBy (rows.map lineHash) i how ∧ NamedBy (rows'.map lineHash) j how ∧
        Alike (rows.map lineHash) (rows'.map lineHash) i j how := by
  obtain ⟨how, -, hnamed, hhash, hmem⟩ := windowHashes_named hi
  obtain ⟨how', -, hnamed', hhash', hmem'⟩ := windowHashes_named hj
  rw [hhash, hhash', Option.some.injEq] at h
  have hbody := apart.lineHash (hrows hmem) (hrows' hmem') h
  rw [trimEnd_body, trimEnd_body] at hbody
  obtain ⟨rfl, hsame⟩ := body_injective (lineHash_marked rows) (lineHash_marked rows') hbody
  exact ⟨how, hnamed, hnamed', hsame⟩

theorem windowHashes_nodup (apart : Apart (hashed rows)) : (windowHashes rows).Nodup := by
  rw [List.nodup_iff_injective_getElem]
  intro ⟨i, hi⟩ ⟨j, hj⟩ h
  have hi' : i < rows.length := length_windowHashes rows ▸ hi
  have hj' : j < rows.length := length_windowHashes rows ▸ hj
  have hat : (windowHashes rows)[i]? = (windowHashes rows)[j]? := by
    rw [List.getElem?_eq_getElem hi, List.getElem?_eq_getElem hj]
    exact congrArg some h
  obtain ⟨how, hnamed, hnamed', hsame⟩ := body_eq_of_hash apart (fun _ => id) (fun _ => id) hi' hj' hat
  apply Fin.ext
  cases how with
  | window r =>
    have hkey : signature (rows.map lineHash) j r = signature (rows.map lineHash) i r := by
      rw [signature, signature, hsame.1, hsame.2]
    exact (hnamed.2.2 j (by simpa using hj') hkey).symm
  | index => exact hsame

/-! ## The lines around -/

/-- The line, and those within five of it up to the text's ends, trailing whitespace ignored. -/
structure SameAround (rows rows' : List (List Char)) (i j : ℕ) : Prop where
  after : ∀ d ≤ minRadius, rows[i + d]?.map trimEnd = rows'[j + d]?.map trimEnd
  before : ∀ d ≤ minRadius, (d ≤ i ↔ d ≤ j) ∧ (d ≤ i → rows[i - d]?.map trimEnd = rows'[j - d]?.map trimEnd)

/-- Another line of the text has the same lines within sixty-four of it, none past the text's ends. -/
def Recurs (rows : List (List Char)) (i : ℕ) : Prop :=
  ∃ j < rows.length, j ≠ i ∧ maxRadius ≤ i ∧ maxRadius ≤ j ∧ i + maxRadius < rows.length ∧ j + maxRadius < rows.length ∧
    ∀ d ≤ maxRadius, rows[i + d]?.map trimEnd = rows[j + d]?.map trimEnd ∧
      rows[i - d]?.map trimEnd = rows[j - d]?.map trimEnd

theorem trimEnd_of_hash {texts : List (List Char)} (apart : Apart texts) (hrows : rows ⊆ texts) (hrows' : rows' ⊆ texts)
    (h : (rows.map lineHash)[i]? = (rows'.map lineHash)[j]?) : rows[i]?.map trimEnd = rows'[j]?.map trimEnd := by
  rw [List.getElem?_map, List.getElem?_map] at h
  cases hi : rows[i]? with
  | none =>
    rw [hi] at h
    cases hj : rows'[j]? with
    | none => rfl
    | some t =>
      rw [hj] at h
      cases h
  | some s =>
    rw [hi] at h
    cases hj : rows'[j]? with
    | none =>
      rw [hj] at h
      cases h
    | some t =>
      rw [hj] at h
      have hhash := Option.some.inj h
      have htrim := apart.lineHash (hrows (List.mem_of_getElem? hi)) (hrows' (List.mem_of_getElem? hj)) hhash
      exact congrArg some htrim

theorem sameAround_of_window {texts : List (List Char)} (apart : Apart texts) (hrows : rows ⊆ texts) (hrows' : rows' ⊆ texts)
    {r : ℕ} (hr : minRadius ≤ r) (hoffset : i - lo i r = j - lo j r)
    (hwindow : window (rows.map lineHash) i r = window (rows'.map lineHash) j r) : SameAround rows rows' i j := by
  constructor
  case after =>
    intro d hd
    exact trimEnd_of_hash apart hrows hrows' (window_after hoffset hwindow (hd.trans hr))
  case before =>
    intro d hd
    refine ⟨⟨?_, ?_⟩, ?_⟩
    · intro hdi
      exact (window_before hoffset hwindow (hd.trans hr) hdi).1
    · intro hdj
      exact (window_before hoffset.symm hwindow.symm (hd.trans hr) hdj).1
    · intro hdi
      exact trimEnd_of_hash apart hrows hrows' (window_before hoffset hwindow (hd.trans hr) hdi).2

theorem recurs_of_index (apart : Apart (hashed rows)) (hi : i < rows.length)
    (h : NamedBy (rows.map lineHash) i .index) : Recurs rows i := by
  obtain ⟨j, hj, hne, hkey⟩ := h
  have hrows : rows ⊆ hashed rows := List.subset_append_left _ _
  have hclear := unclamped (lineHash_marked rows) hj (by simpa using hi) hne hkey
  obtain ⟨hoffset, hwindow⟩ := signature_injective (lineHash_marked rows) (lineHash_marked rows) hkey
  rw [List.length_map] at hj hclear
  obtain ⟨hj', hi', hj'', hi''⟩ := hclear
  refine ⟨j, hj, hne, hi', hj', hi'', hj'', ?_⟩
  intro d hd
  constructor
  · exact (trimEnd_of_hash apart hrows hrows (window_after hoffset hwindow hd)).symm
  · exact (trimEnd_of_hash apart hrows hrows (window_before hoffset hwindow hd (hd.trans hj')).2).symm

end Hashed

/-! ## The builtins -/

section Builtins
variable {path path' start stop edits : Value} {files files' : String → Opened}

/-- A line `view-hash` shows has its text and its witness. -/
theorem viewHash_shows {viewed : List Viewed} (h : viewHash path start stop files = .ok viewed) :
    ∃ p eol body, path = .string p ∧ readTextFile p "view-hash" (files p) = .ok (eol, body) ∧
      ∀ v ∈ viewed, ∃ i, v.line = i + 1 ∧ (rowsOf body)[i]? = some v.text ∧
        (windowHashes (rowsOf body))[i]? = some v.hash := by
  unfold viewHash viewRange at h
  obtain ⟨⟨rows, first, last⟩, hrange, h⟩ := Fallible.bind_eq_ok.mp h
  obtain ⟨p, hp, hrange⟩ := Fallible.bind_eq_ok.mp hrange
  obtain ⟨from', _, hrange⟩ := Fallible.bind_eq_ok.mp hrange
  obtain ⟨upto, _, hrange⟩ := Fallible.bind_eq_ok.mp hrange
  split at hrange
  · cases hrange
  · obtain ⟨⟨eol, body⟩, hread, hrange⟩ := Fallible.bind_eq_ok.mp hrange
    cases hrange
    cases h
    cases path with
    | string s =>
      cases hp
      refine ⟨p, eol, body, rfl, hread, ?_⟩
      intro v hv
      obtain ⟨⟨⟨text, hash⟩, i⟩, hrow, rfl⟩ := List.mem_map.mp hv
      have hmem := List.mem_of_mem_take (List.mem_of_mem_drop hrow)
      have hat := List.mem_zipIdx_iff_getElem?.mp hmem
      rw [List.getElem?_zip_eq_some] at hat
      exact ⟨i, rfl, hat.1, hat.2⟩
    | _ => cases hp

omit [Digest] in
theorem matching_getElem? {hashes : List (List Char)} {want : String} {i : ℕ} (h : i ∈ matching hashes want) :
    hashes[i]? = some want.toList := by
  have hat := (List.mem_filter.mp h).2
  simpa using hat

omit [Digest] in
theorem resolve_hash {p : String} {hashes : List (List Char)} {m : List (String × Value)} {want : String}
    {res : ResolvedEdit} (hwant : m.lookup "hash" = some (.string want)) (h : resolve p hashes (.map m) = .ok res) :
    hashes[res.line]? = some want.toList := by
  unfold resolve at h
  obtain ⟨want', hwant', h⟩ := Fallible.bind_eq_ok.mp h
  obtain ⟨new, _, h⟩ := Fallible.bind_eq_ok.mp h
  rw [textField, hwant] at hwant'
  cases hwant'
  split at h
  · cases h
  · next line hmatch =>
    cases h
    exact matching_getElem? (hmatch ▸ List.mem_singleton_self line)
  · cases h

/-- An edit accepted resolved each of its records against the text it edits. -/
theorem editHash_resolved {edited : Edited} (h : editHash path edits files = .ok edited) :
    ∃ p items eol, path = .string p ∧ edits = .list items ∧
      readTextFile p "edit-hash" (files p) = .ok (eol, edited.old) ∧
      List.Forall₂ (fun e res => resolve p (windowHashes (rowsOf edited.old)) e = .ok res) items edited.resolved := by
  unfold editHash at h
  obtain ⟨p, hp, hrest⟩ := Fallible.bind_eq_ok.mp h
  cases path with
  | string s =>
    cases hp
    cases edits with
    | list items =>
      cases items with
      | nil => cases hrest
      | cons e items =>
        obtain ⟨⟨eol, body⟩, hread, hrest⟩ := Fallible.bind_eq_ok.mp hrest
        obtain ⟨resolved, hresolved, hrest⟩ := Fallible.bind_eq_ok.mp hrest
        split at hrest
        · cases hrest
        · cases hrest
          exact ⟨p, e :: items, eol, rfl, rfl, hread, Fallible.mapM_eq_ok.mp hresolved⟩
    | _ => cases hrest
  | _ => cases hp

end Builtins

/-- Witnesses of distinct lines are distinct; and where `edit-hash` accepts the witness of a line
viewed, the line it edits is that line with the same lines within five of it, or the line at the same
index of a text where, as where it was viewed, the lines within sixty-four of it recur. -/
theorem witness_names_line :
    (∀ rows, Apart (hashed rows) → (windowHashes rows).Nodup) ∧
    ∀ {p : String} {start stop path' : Value} {items : List Value} {files files' : String → Opened}
      {viewed : List Viewed} {edited : Edited} {eol : Eol} {body : List Char},
      readTextFile p "view-hash" (files p) = .ok (eol, body) → viewHash (.string p) start stop files = .ok viewed →
      editHash path' (.list items) files' = .ok edited → Apart (hashed (rowsOf body) ++ hashed (rowsOf edited.old)) →
      ∀ v ∈ viewed, ∀ (k : ℕ) (m : List (String × Value)) (want : String), items[k]? = some (.map m) →
        m.lookup "hash" = some (.string want) → want.toList = v.hash → ∃ i res, v.line = i + 1 ∧ (rowsOf body)[i]? = some v.text ∧
          edited.resolved[k]? = some res ∧
          (SameAround (rowsOf body) (rowsOf edited.old) i res.line ∨
            res.line = i ∧ Recurs (rowsOf body) i ∧ Recurs (rowsOf edited.old) i) := by
  refine ⟨fun rows apart => windowHashes_nodup apart, ?_⟩
  intro p start stop path' items files files' viewed edited eol body hread hview hedit apart v hv k m want hk hhash hwant
  obtain ⟨_, _, _, ⟨⟩, hread', hshown⟩ := viewHash_shows hview
  cases hread.symm.trans hread'
  obtain ⟨i, hline, htext, hwitness⟩ := hshown v hv
  obtain ⟨_, _, _, rfl, ⟨⟩, _, hresolved⟩ := editHash_resolved hedit
  obtain ⟨res, hres, hresolve⟩ := Fallible.forall₂_getElem? hresolved hk
  have hfound := resolve_hash hhash hresolve
  rw [hwant, ← hwitness] at hfound
  have hi : i < (rowsOf body).length := (List.getElem?_eq_some_iff.mp htext).1
  have hj : res.line < (rowsOf edited.old).length := by
    rw [← length_windowHashes]
    exact (List.getElem?_eq_some_iff.mp (hfound.trans hwitness)).1
  have hrows : hashed (rowsOf body) ⊆ hashed (rowsOf body) ++ hashed (rowsOf edited.old) :=
    List.subset_append_left _ _
  have hrows' : hashed (rowsOf edited.old) ⊆ hashed (rowsOf body) ++ hashed (rowsOf edited.old) :=
    List.subset_append_right _ _
  obtain ⟨how, hnamed, hnamed', halike⟩ := body_eq_of_hash apart hrows hrows' hi hj hfound.symm
  refine ⟨i, res, hline, htext, hres, ?_⟩
  cases how with
  | window r =>
    left
    have htexts : rowsOf body ⊆ hashed (rowsOf body) := List.subset_append_left _ _
    have htexts' : rowsOf edited.old ⊆ hashed (rowsOf edited.old) := List.subset_append_left _ _
    exact sameAround_of_window apart (List.Subset.trans htexts hrows) (List.Subset.trans htexts' hrows') hnamed.1 halike.1 halike.2
  | index =>
    right
    have hsame : res.line = i := Eq.symm halike
    have hbody := recurs_of_index (fun s hs t ht => apart s (hrows hs) t (hrows ht)) hi hnamed
    have hold := recurs_of_index (fun s hs t ht => apart s (hrows' hs) t (hrows' ht)) hj hnamed'
    exact ⟨hsame, hbody, hsame ▸ hold⟩

end

/-! ## Lines named by their index

The middle of a long run of one line is named by index, so its witness is accepted at that index of
a run of another.
-/

/-! ## One line viewed and edited -/

section Texts
variable {p : String} {tool : String}

theorem readTextFile_text (text : String) : readTextFile p tool (.bytes text.toByteArray.data.toList) =
    .ok (Eol.of text.toByteArray.data.toList, (Eol.of text.toByteArray.data.toList).decode text.toList) := by
  have hdecoded : String.fromUTF8? ⟨text.toByteArray.data.toList.toArray⟩ = some text := by
    rw [Array.toArray_toList, String.fromUTF8?, dif_pos text.isValidUTF8]
    rfl
  rw [readTextFile]
  rw [hdecoded]

theorem viewBound_int (which : String) {n : Data.I64} {k : ℕ} (h : n.1 = ↑(k + 1)) :
    viewBound which tool (.int n) = .ok (k + 1) := by
  have hpos : 1 ≤ n.1 := by
    rw [h]
    omega
  unfold viewBound
  dsimp only
  rw [if_pos hpos, h, Int.toNat_natCast]

end Texts

section Digests
variable [Digest]

section Line
variable {p : String} (files : String → Opened) {eol : Eol} {body : List Char} {i : ℕ}

theorem viewHash_line (start stop : Data.I64) (hread : readTextFile p "view-hash" (files p) = .ok (eol, body))
    (hstart : start.1 = ↑(i + 1)) (hstop : stop.1 = ↑(i + 2)) {text hash : List Char}
    (htext : (rowsOf body)[i]? = some text) (hhash : (windowHashes (rowsOf body))[i]? = some hash) :
    viewHash (.string p) (.int start) (.int stop) files = .ok [⟨i + 1, hash, text⟩] := by
  have hi : i < (rowsOf body).length := (List.getElem?_eq_some_iff.mp htext).1
  have hrange : viewRange (.string p) (.int start) (.int stop) "view-hash" files = .ok (rowsOf body, i, i + 1) := by
    refine Fallible.bind_eq_ok.mpr ⟨p, rfl, ?_⟩
    refine Fallible.bind_eq_ok.mpr ⟨i + 1, viewBound_int "start" hstart, ?_⟩
    refine Fallible.bind_eq_ok.mpr ⟨i + 2, viewBound_int "end" hstop, ?_⟩
    rw [if_neg (by omega)]
    refine Fallible.bind_eq_ok.mpr ⟨(eol, body), hread, ?_⟩
    have hmin : min (i + 2 - 1) (rowsOf body).length = i + 1 := by omega
    dsimp only
    rw [hmin, Nat.add_sub_cancel]
  have hrow : ((rowsOf body).zip (windowHashes (rowsOf body))).zipIdx[i]? = some ((text, hash), i) := by
    have hpair : ((rowsOf body).zip (windowHashes (rowsOf body)))[i]? = some (text, hash) :=
      List.getElem?_zip_eq_some.mpr ⟨htext, hhash⟩
    rw [List.getElem?_zipIdx, hpair]
    simp
  obtain ⟨hlt, hget⟩ := List.getElem?_eq_some_iff.mp hrow
  refine Fallible.bind_eq_ok.mpr ⟨(rowsOf body, i, i + 1), hrange, ?_⟩
  dsimp only
  rw [List.drop_take_succ_eq_cons_getElem _ _ hlt, hget]
  rfl

omit [Digest] in
theorem matching_alone {hashes : List (List Char)} (hnodup : hashes.Nodup) {want : String}
    (h : hashes[i]? = some want.toList) : matching hashes want = [i] := by
  have hi : i < hashes.length := (List.getElem?_eq_some_iff.mp h).1
  have hsame : ∀ j ∈ List.range hashes.length, decide (hashes[j]? = some want.toList) = decide (j = i) := by
    intro j hj
    rw [decide_eq_decide]
    constructor
    · intro hwant
      exact (List.getElem?_inj (List.mem_range.mp hj) hnodup).mp (hwant.trans h.symm)
    · rintro rfl
      exact h
  rw [matching, List.filter_congr hsame, List.filter_eq, List.count_eq_one_of_mem List.nodup_range]
  · rfl
  · exact List.mem_range.mpr hi

theorem editHash_accepts {want : String} (new : String) (hread : readTextFile p "edit-hash" (files p) = .ok (eol, body))
    (hnodup : (windowHashes (rowsOf body)).Nodup) (hwant : (windowHashes (rowsOf body))[i]? = some want.toList) :
    ∃ edited, editHash (.string p) (.list [.map [("hash", .string want), ("line", .string new)]]) files = .ok edited ∧
      edited.resolved = [⟨i, new.toList⟩] ∧ edited.old = body := by
  have hresolve : resolve p (windowHashes (rowsOf body)) (.map [("hash", .string want), ("line", .string new)]) =
      .ok ⟨i, new.toList⟩ := by
    refine Fallible.bind_eq_ok.mpr ⟨want, rfl, ?_⟩
    refine Fallible.bind_eq_ok.mpr ⟨new, rfl, ?_⟩
    rw [matching_alone hnodup hwant]
  have hall : [Value.map [("hash", .string want), ("line", .string new)]].mapM (resolve p (windowHashes (rowsOf body))) =
      .ok [⟨i, new.toList⟩] := Fallible.mapM_eq_ok.mpr (.cons hresolve .nil)
  refine ⟨_, Fallible.bind_eq_ok.mpr ⟨p, rfl, Fallible.bind_eq_ok.mpr ⟨(eol, body), hread,
    Fallible.bind_eq_ok.mpr ⟨_, hall, rfl⟩⟩⟩, rfl, rfl⟩

end Line

/-! ## Runs -/

/-- In a run of one line, a line as far from the ends as a window reaches is named by its index. -/
theorem run_witness (line : List Char) {n i : ℕ} (hstart : maxRadius ≤ i) (hstop : i + maxRadius + 1 < n) :
    (windowHashes (List.replicate n line))[i]? = some (lineHash (['i', 'd', 'x', ':'] ++ digits i)) := by
  have hlength : i < (List.replicate n line).length := by
    rw [List.length_replicate]
    omega
  obtain ⟨how, -, hnamed, hhash, -⟩ := windowHashes_named hlength
  rw [List.map_replicate] at hnamed hhash
  cases how with
  | index => exact hhash
  | window r =>
    obtain ⟨-, hcap, halone⟩ := hnamed
    have hsame {k : ℕ} (hk : r ≤ k) (hkn : k + r < n) : signature (List.replicate n (lineHash line)) k r =
        digits r ++ ':' :: (List.replicate (2 * r + 1) (lineHash line)).flatten := by
      have hoffset : k - lo k r = r := by
        rw [lo]
        omega
      have hwindow : window (List.replicate n (lineHash line)) k r = List.replicate (2 * r + 1) (lineHash line) := by
        have hcount : min (min (k + r + 1) n) n - (k - r) = 2 * r + 1 := by omega
        rw [window, hi, lo, List.length_replicate, List.take_replicate, List.drop_replicate, hcount]
      rw [signature, hoffset, hwindow]
    have hnext := halone (i + 1) (by rw [List.length_replicate]; omega)
    rw [hsame (by omega) (by omega), hsame (by omega) (by omega)] at hnext
    have hself : i + 1 = i := hnext rfl
    omega

end Digests

/-- Digits that spell a text's characters, so that no two texts have the same. -/
def spelled (text : List Char) : List Char := text.flatMap fun c => List.replicate c.toNat 'a' ++ ['b']

theorem spelled_cons (c : Char) (text : List Char) :
    spelled (c :: text) = List.replicate c.toNat 'a' ++ 'b' :: spelled text := by
  simp [spelled]

theorem spelled_injective {s t : List Char} (h : spelled s = spelled t) : s = t := by
  have hmark (n : ℕ) : 'b' ∉ List.replicate n 'a' := by
    intro hmem
    cases List.eq_of_mem_replicate hmem
  induction s generalizing t with
  | nil =>
    cases t with
    | nil => rfl
    | cons d t => simp [spelled] at h
  | cons c s ih =>
    cases t with
    | nil => simp [spelled] at h
    | cons d t =>
      rw [spelled_cons, spelled_cons] at h
      obtain ⟨hfront, hrest⟩ := cut_injective (hmark c.toNat) (hmark d.toNat) (by simp) (by simp) h
      have hchar : c.toNat = d.toNat := by simpa using congrArg List.length hfront
      rw [Char.toNat_inj.mp hchar, ih (List.cons.inj hrest).2]

@[reducible] def spelledDigest : Digest where
  hex := spelled
  digits := by
    intro text c hc
    obtain ⟨d, _, hc⟩ := List.mem_flatMap.mp hc
    right
    rcases List.mem_append.mp hc with hc | hc
    · rw [List.eq_of_mem_replicate hc]
      decide
    · rw [List.mem_singleton.mp hc]
      decide

/-- A line a hundred and thirty times over. -/
def run (c : Char) : String := String.ofList (['\n'].intercalate (List.replicate 130 [c]))

/-- However injective the hash, the witness of a line in the middle of one run is accepted at that
index of a run of another line. -/
theorem index_witness_misses : ∃ d : Digest, (∀ s t, d.hex s = d.hex t → s = t) ∧
    ∃ (files files' : String → Opened) (start stop : Data.I64) (v : Viewed) (edited : Edited) (res : ResolvedEdit),
      viewHash (.string "f") (.int start) (.int stop) files = .ok [v] ∧
      editHash (.string "f") (.list [.map [("hash", .string (String.ofList v.hash)), ("line", .string "c")]]) files' =
        .ok edited ∧
      edited.resolved = [res] ∧ v.text = ['a'] ∧ (rowsOf edited.old)[res.line]? = some ['b'] := by
  let _ := spelledDigest
  have hread (c : Char) (hc : c = 'a' ∨ c = 'b') (tool : String) :
      ∃ eol body, readTextFile "f" tool (.bytes (run c).toByteArray.data.toList) = .ok (eol, body) ∧
        rowsOf body = List.replicate 130 [c] := by
    refine ⟨_, _, readTextFile_text _, ?_⟩
    have hrows (eol : Eol) : rowsOf (eol.decode (['\n'].intercalate (List.replicate 130 [c]))) = List.replicate 130 [c] := by
      rcases hc with rfl | rfl <;> cases eol <;> decide +kernel
    rw [run, String.toList_ofList]
    exact hrows _
  have hapart (rows : List (List Char)) : Apart (hashed rows) := fun s _ t _ heq => spelled_injective heq
  obtain ⟨eol, body, hviewed, hbody⟩ := hread 'a' (.inl rfl) "view-hash"
  obtain ⟨eol', body', hedited, hbody'⟩ := hread 'b' (.inr rfl) "edit-hash"
  have hwitness : (windowHashes (rowsOf body))[64]? = some (lineHash (['i', 'd', 'x', ':'] ++ digits 64)) := by
    rw [hbody]
    exact run_witness ['a'] (by decide) (by decide)
  have hwitness' : (windowHashes (rowsOf body'))[64]? =
      some (String.ofList (lineHash (['i', 'd', 'x', ':'] ++ digits 64))).toList := by
    rw [hbody', String.toList_ofList]
    exact run_witness ['b'] (by decide) (by decide)
  have hview := viewHash_line (fun _ => .bytes (run 'a').toByteArray.data.toList) ⟨65, by decide⟩ ⟨66, by decide⟩
    hviewed rfl rfl (by rw [hbody]; rfl) hwitness
  obtain ⟨edited, hedit, hresolved, hold⟩ := editHash_accepts (fun _ => .bytes (run 'b').toByteArray.data.toList) "c"
    hedited (windowHashes_nodup (hapart _)) hwitness'
  refine ⟨spelledDigest, fun s t heq => spelled_injective heq, _, _, _, _, _, edited, _, hview, hedit, hresolved, rfl, ?_⟩
  rw [hold, hbody']
  rfl

/-- The digest at the texts that two lines `a` and `b` have hashed. -/
@[reducible] def tinyDigest : Digest where
  hex text :=
    if text = ['a'] then ['1', '7', '7', '6', '2', 'f']
    else if text = ['b'] then ['1', '0', 'e', '5', 'c', 'f']
    else if text = "5:0:h17762fh10e5cf".toList then ['5', 'b', '5', '2', 'f', '6']
    else ['9', '9', '2', '5', '3', 'e']
  digits := by
    have hall {digits : List Char} (h : (digits.all fun c => c.isDigit || ['a', 'b', 'c', 'd', 'e', 'f'].contains c) = true) :
        ∀ c ∈ digits, c.isDigit ∨ c ∈ ['a', 'b', 'c', 'd', 'e', 'f'] := by
      intro c hc
      have hone := List.all_eq_true.mp h c hc
      rwa [Bool.or_eq_true, List.contains_iff_mem] at hone
    intro text
    split
    · exact hall rfl
    · split
      · exact hall rfl
      · split <;> exact hall rfl

theorem witness_names_line_tiny : ∃ (files files' : String → Opened) (start stop : Data.I64) (body : List Char)
    (viewed : List Viewed) (edited : Edited),
    @viewHash tinyDigest (.string "f") (.int start) (.int stop) files = .ok viewed ∧ viewed ≠ [] ∧
      @editHash tinyDigest (.string "f") (.list [.map [("hash", .string "h5b52f6"), ("line", .string "c")]]) files' =
        .ok edited ∧
      ∀ v ∈ viewed, ∃ i res, v.line = i + 1 ∧ (rowsOf body)[i]? = some v.text ∧ edited.resolved[0]? = some res ∧
        (SameAround (rowsOf body) (rowsOf edited.old) i res.line ∨
          res.line = i ∧ Recurs (rowsOf body) i ∧ Recurs (rowsOf edited.old) i) := by
  let _ := tinyDigest
  have hread (tool : String) : readTextFile "f" tool (.bytes "a\nb".toByteArray.data.toList) =
      .ok (.lf, "a\nb".toList) := readTextFile_text "a\nb"
  have hread' (tool : String) : readTextFile "f" tool (.bytes "a \nb".toByteArray.data.toList) =
      .ok (.lf, "a \nb".toList) := readTextFile_text "a \nb"
  have hwitness : (windowHashes (rowsOf "a\nb".toList))[0]? = some ['h', '5', 'b', '5', '2', 'f', '6'] := by
    decide +kernel
  have hwitness' : (windowHashes (rowsOf "a \nb".toList))[0]? = some "h5b52f6".toList := by
    decide +kernel
  have hview := viewHash_line (fun _ => .bytes "a\nb".toByteArray.data.toList) ⟨1, by decide⟩ ⟨2, by decide⟩
    (hread _) rfl rfl rfl hwitness
  obtain ⟨edited, hedit, -, hold⟩ := editHash_accepts (fun _ => .bytes "a \nb".toByteArray.data.toList) "c"
    (hread' _) (by decide +kernel) hwitness'
  have apart : Apart (hashed (rowsOf "a\nb".toList) ++ hashed (rowsOf edited.old)) := by
    rw [hold]
    unfold Apart
    decide +kernel
  refine ⟨_, _, _, _, "a\nb".toList, _, edited, hview, List.cons_ne_nil _ _, hedit, ?_⟩
  intro v hv
  cases List.mem_singleton.mp hv
  exact witness_names_line.2 (hread _) hview hedit apart _ (List.mem_singleton_self _) 0 _ _ rfl rfl rfl

end Ral.Edit
