import Ral.Edit.Witness

/-! # What a witness hashes is read back

A number ends at its colon and a hash at the next one's mark, so two bodies alike have the same
radius, offset and window.
-/

namespace Ral.Edit
open Ral.Syntax (isWhitespace)

section

/-! ## Text up to a mark -/

section Mark
variable {c : Char} {a b x y : List Char}

theorem takeWhile_mark (ha : c ∉ a) (hx : ∀ d ∈ x.head?, d = c) : (a ++ x).takeWhile (· ≠ c) = a := by
  induction a with
  | nil =>
    cases x with
    | nil => rfl
    | cons d x =>
      have hd : d = c := hx d rfl
      simp [hd]
  | cons d a ih =>
    have hd : d ≠ c := fun heq => ha (heq ▸ List.mem_cons_self)
    have hrest := ih fun hmem => ha (List.mem_cons_of_mem d hmem)
    rw [List.cons_append, List.takeWhile_cons_of_pos (by simpa using hd), hrest]

theorem cut_injective (ha : c ∉ a) (hb : c ∉ b) (hx : ∀ d ∈ x.head?, d = c) (hy : ∀ d ∈ y.head?, d = c)
    (h : a ++ x = b ++ y) : a = b ∧ x = y := by
  have hfront : a = b := by
    rw [← takeWhile_mark ha hx, h, takeWhile_mark hb hy]
  subst hfront
  exact ⟨rfl, List.append_cancel_left h⟩

end Mark

def Marked (words : List (List Char)) : Prop := ∀ w ∈ words, ∃ rest, w = 'h' :: rest ∧ 'h' ∉ rest

theorem Marked.head_flatten {words : List (List Char)} (h : Marked words) : ∀ d ∈ words.flatten.head?, d = 'h' := by
  cases words with
  | nil => simp
  | cons w words =>
    obtain ⟨rest, rfl, -⟩ := h w List.mem_cons_self
    simp

theorem Marked.flatten_injective {xs ys : List (List Char)} (hx : Marked xs) (hy : Marked ys)
    (h : xs.flatten = ys.flatten) : xs = ys := by
  induction xs generalizing ys with
  | nil =>
    cases ys with
    | nil => rfl
    | cons w ys =>
      obtain ⟨rest, rfl, -⟩ := hy w List.mem_cons_self
      simp at h
  | cons v xs ih =>
    obtain ⟨a, rfl, ha⟩ := hx v List.mem_cons_self
    cases ys with
    | nil => simp at h
    | cons w ys =>
      obtain ⟨b, rfl, hb⟩ := hy w List.mem_cons_self
      have hxs : Marked xs := fun w hw => hx w (List.mem_cons_of_mem _ hw)
      have hys : Marked ys := fun w hw => hy w (List.mem_cons_of_mem _ hw)
      rw [List.flatten_cons, List.flatten_cons, List.cons_append, List.cons_append, List.cons.injEq] at h
      obtain ⟨rfl, hrest⟩ := cut_injective ha hb hxs.head_flatten hys.head_flatten h.2
      rw [ih hxs hys hrest]

/-! ## Numbers -/

theorem isDigit_of_mem_digits {n : ℕ} {c : Char} (h : c ∈ digits n) : c.isDigit = true :=
  Nat.isDigit_of_mem_toDigits (by decide) (by decide) h

theorem digits_injective {m n : ℕ} (h : digits m = digits n) : m = n := by
  have hread := congrArg (fun text => Nat.ofDigitChars 10 text 0) h
  simpa [digits] using hread

theorem colon_not_mem_digits (n : ℕ) : ':' ∉ digits n := by
  intro h
  have hdigit := isDigit_of_mem_digits h
  revert hdigit
  decide

/-! ## Bodies -/

section Bodies
variable {lh lh' : List (List Char)} {i j r r' : ℕ}

theorem Marked.window (h : Marked lh) (i r : ℕ) : Marked (window lh i r) := by
  intro w hw
  exact h w (List.mem_of_mem_take (List.mem_of_mem_drop hw))

theorem numbered_injective {m n : ℕ} {x y : List Char} (h : digits m ++ ':' :: x = digits n ++ ':' :: y) :
    m = n ∧ x = y := by
  obtain ⟨hdigits, hrest⟩ := cut_injective (colon_not_mem_digits m) (colon_not_mem_digits n) (by simp) (by simp) h
  exact ⟨digits_injective hdigits, (List.cons.inj hrest).2⟩

theorem signature_injective (hlh : Marked lh) (hlh' : Marked lh') (h : signature lh i r = signature lh' j r') :
    i - lo i r = j - lo j r' ∧ window lh i r = window lh' j r' := by
  obtain ⟨hoffset, hflatten⟩ := numbered_injective h
  exact ⟨hoffset, (hlh.window i r).flatten_injective (hlh'.window j r') hflatten⟩

def Alike (lh lh' : List (List Char)) (i j : ℕ) : Witness → Prop
  | .window r => i - lo i r = j - lo j r ∧ window lh i r = window lh' j r
  | .index => i = j

/-- Bodies alike name their lines alike. -/
theorem body_injective (hlh : Marked lh) (hlh' : Marked lh') {how how' : Witness} (h : body lh i how = body lh' j how') :
    how = how' ∧ Alike lh lh' i j how := by
  have hclash {n : ℕ} {x y : List Char} (hsame : digits n ++ x = 'i' :: y) : False := by
    cases hn : digits n with
    | nil => exact Nat.toDigits_ne_nil hn
    | cons c rest =>
      rw [hn] at hsame
      cases hsame
      have hdigit : ('i').isDigit = true := isDigit_of_mem_digits (n := n) (by simp [hn])
      revert hdigit
      decide
  cases how with
  | window r =>
    cases how' with
    | window r' =>
      obtain ⟨rfl, hrest⟩ := numbered_injective h
      obtain ⟨hoffset, hflatten⟩ := numbered_injective hrest
      exact ⟨rfl, hoffset, (hlh.window i r).flatten_injective (hlh'.window j r) hflatten⟩
    | index => exact (hclash h).elim
  | index =>
    cases how' with
    | window r' => exact (hclash h.symm).elim
    | index => exact ⟨rfl, digits_injective (List.append_cancel_left h)⟩

end Bodies

/-! ## Nothing is trimmed off a body -/

theorem trimEnd_eq {text : List Char} (h : ∀ c ∈ text, isWhitespace c = false) : trimEnd text = text := by
  have hreverse : text.reverse.dropWhile isWhitespace = text.reverse := by
    cases hcons : text.reverse with
    | nil => rfl
    | cons c rest =>
      have hmem : c ∈ text := List.mem_reverse.mp (by simp [hcons])
      exact List.dropWhile_cons_of_neg (by simp [h c hmem])
  rw [trimEnd, hreverse, List.reverse_reverse]

theorem isWhitespace_of_isDigit {c : Char} (h : c.isDigit = true) : isWhitespace c = false := by
  have hrange : 48 ≤ c.toNat ∧ c.toNat ≤ 57 := Char.isDigit_iff_toNat.mp h
  simp [isWhitespace]
  omega

variable [Digest]

theorem lineHash_marked (rows : List (List Char)) : Marked (rows.map lineHash) := by
  intro w hw
  obtain ⟨line, _, rfl⟩ := List.mem_map.mp hw
  refine ⟨Digest.hex (trimEnd line), rfl, ?_⟩
  intro hmem
  have hdigit := Digest.digits _ 'h' hmem
  revert hdigit
  decide

theorem trimEnd_body (rows : List (List Char)) (i : ℕ) (how : Witness) :
    trimEnd (body (rows.map lineHash) i how) = body (rows.map lineHash) i how := by
  have hdigits {n : ℕ} {c : Char} (hc : c ∈ digits n) : isWhitespace c = false :=
    isWhitespace_of_isDigit (isDigit_of_mem_digits hc)
  have hhash {w : List Char} (hw : w ∈ rows.map lineHash) {c : Char} (hc : c ∈ w) : isWhitespace c = false := by
    obtain ⟨line, _, rfl⟩ := List.mem_map.mp hw
    rcases List.mem_cons.mp hc with rfl | hc
    · decide
    · rcases Digest.digits _ c hc with hdigit | hletter
      · exact isWhitespace_of_isDigit hdigit
      · simp only [List.mem_cons, List.not_mem_nil, or_false] at hletter
        rcases hletter with rfl | rfl | rfl | rfl | rfl | rfl <;> decide
  apply trimEnd_eq
  intro c hc
  cases how with
  | window r =>
    simp only [body, List.mem_append, List.mem_cons, List.mem_flatten] at hc
    rcases hc with hc | rfl | hc | rfl | ⟨w, hw, hc⟩
    · exact hdigits hc
    · decide
    · exact hdigits hc
    · decide
    · exact hhash (List.mem_of_mem_take (List.mem_of_mem_drop hw)) hc
  | index =>
    simp only [body, List.mem_append] at hc
    rcases hc with hc | hc
    · simp only [List.mem_cons, List.not_mem_nil, or_false] at hc
      rcases hc with rfl | rfl | rfl | rfl <;> decide
    · exact hdigits hc

end

/-! ## How refinement names a line

By the first radius, from the floor to the cap, at which no other line agrees with it; by its index
where one still does at the cap.
-/

/-! ## Windows -/

section Windows
variable {lh : List (List Char)} {i j r : ℕ}

theorem window_inside {k : ℕ} (h : i - r + k < i + r + 1) : (window lh i r)[k]? = lh[i - r + k]? := by
  rw [window, List.getElem?_drop, List.getElem?_take, lo]
  split
  · rfl
  · next hout =>
    rw [hi] at hout
    have hend : lh.length ≤ i - r + k := by omega
    rw [List.getElem?_eq_none hend]

theorem window_outside {k : ℕ} (h : i + r + 1 ≤ i - r + k) : (window lh i r)[k]? = none := by
  apply List.getElem?_eq_none
  rw [window, List.length_drop, List.length_take, lo, hi]
  omega

theorem length_window (lh : List (List Char)) (i r : ℕ) : (window lh i r).length = hi lh i r - lo i r := by
  rw [window, List.length_drop, List.length_take, hi]
  omega

theorem unclamped (hlh : Marked lh) (hi' : i < lh.length) (hj : j < lh.length) (hne : i ≠ j)
    (h : signature lh i r = signature lh j r) :
    r ≤ i ∧ r ≤ j ∧ i + r < lh.length ∧ j + r < lh.length := by
  obtain ⟨hoffset, hwindow⟩ := signature_injective hlh hlh h
  have hlength := congrArg List.length hwindow
  rw [length_window, length_window, hi, hi, lo, lo] at hlength
  rw [lo, lo] at hoffset
  omega

section Around
variable {lh' : List (List Char)} {d : ℕ}
variable (hoffset : i - lo i r = j - lo j r) (hwindow : window lh i r = window lh' j r)
include hoffset hwindow

theorem window_after (hd : d ≤ r) : lh[i + d]? = lh'[j + d]? := by
  rw [lo, lo] at hoffset
  have hat := congrArg (fun words : List (List Char) => words[i - (i - r) + d]?) hwindow
  rw [window_inside (by omega), hoffset, window_inside (by omega)] at hat
  have hi' : i - r + (j - (j - r) + d) = i + d := by omega
  have hj' : j - r + (j - (j - r) + d) = j + d := by omega
  rwa [hi', hj'] at hat

theorem window_before (hd : d ≤ r) (hdi : d ≤ i) : d ≤ j ∧ lh[i - d]? = lh'[j - d]? := by
  rw [lo, lo] at hoffset
  have hat := congrArg (fun words : List (List Char) => words[i - (i - r) - d]?) hwindow
  rw [window_inside (by omega), hoffset, window_inside (by omega)] at hat
  have hi' : i - r + (j - (j - r) - d) = i - d := by omega
  have hj' : j - r + (j - (j - r) - d) = j - d := by omega
  rw [hi', hj'] at hat
  exact ⟨by omega, hat⟩

end Around

theorem signature_smaller (hlh : Marked lh) (hi' : i < lh.length) (hj : j < lh.length)
    (h : signature lh i (r + 1) = signature lh j (r + 1)) : signature lh i r = signature lh j r := by
  by_cases hsame : i = j
  · rw [hsame]
  · have hclear := unclamped hlh hi' hj hsame h
    obtain ⟨hoffset, hwindow⟩ := signature_injective hlh hlh h
    have hsmall : window lh i r = window lh j r := by
      apply List.ext_getElem?
      intro k
      by_cases hk : k < 2 * r + 1
      · have hat := congrArg (fun words : List (List Char) => words[k + 1]?) hwindow
        rw [window_inside (by omega), window_inside (by omega)] at hat
        have hi'' : i - (r + 1) + (k + 1) = i - r + k := by omega
        have hj'' : j - (r + 1) + (k + 1) = j - r + k := by omega
        rw [window_inside (by omega), window_inside (by omega), ← hi'', ← hj'', hat]
      · rw [window_outside (by omega), window_outside (by omega)]
    have hsteps : i - lo i r = j - lo j r := by
      rw [lo, lo]
      omega
    rw [signature, signature, hsteps, hsmall]

end Windows

/-! ## One round -/

section Round
variable {how : List Witness} {r i : ℕ}

theorem foldl_set_getElem? (lines : List ℕ) (how : List Witness) (w : Witness) (i : ℕ) :
    (lines.foldl (fun how i => how.set i w) how)[i]? = if i ∈ lines then how[i]?.map fun _ => w else how[i]? := by
  induction lines generalizing how with
  | nil => simp
  | cons j lines ih =>
    rw [List.foldl_cons, ih]
    by_cases hij : j = i
    · subst hij
      rw [if_pos List.mem_cons_self]
      by_cases hj : j < how.length
      · simp [hj]
      · simp [hj]
    · simp [hij, Ne.symm hij]

theorem length_settle (r : ℕ) (how : List Witness) (lines : List ℕ) : (settle r how lines).length = how.length := by
  have hfold (lines : List ℕ) (how : List Witness) :
      (lines.foldl (fun how i => how.set i Witness.index) how).length = how.length := by
    induction lines generalizing how with
    | nil => rfl
    | cons j lines ih => rw [List.foldl_cons, ih, List.length_set]
  unfold settle
  split
  · exact List.length_set
  · split
    · exact hfold _ _
    · rfl

theorem length_foldl_settle (r : ℕ) (classes : List (List ℕ)) (how : List Witness) :
    (classes.foldl (settle r) how).length = how.length := by
  induction classes generalizing how with
  | nil => rfl
  | cons c classes ih => rw [List.foldl_cons, ih, length_settle]

theorem settle_other {lines : List ℕ} (h : i ∉ lines) : (settle r how lines)[i]? = how[i]? := by
  unfold settle
  split
  · next j =>
    have hne : j ≠ i := fun heq => h (heq ▸ List.mem_singleton_self j)
    rw [List.getElem?_set_ne hne]
  · split
    · rw [foldl_set_getElem?, if_neg h]
    · rfl

theorem settled_other {classes : List (List ℕ)} (h : i ∉ classes.flatten) :
    (classes.foldl (settle r) how)[i]? = how[i]? := by
  induction classes generalizing how with
  | nil => rfl
  | cons c classes ih =>
    rw [List.flatten_cons, List.mem_append, not_or] at h
    rw [List.foldl_cons, ih h.2, settle_other h.1]

theorem settled {classes : List (List ℕ)} {w : Witness} (hmem : i ∈ classes.flatten)
    (h : ∀ c ∈ classes, i ∈ c → ∀ how' : List Witness, how'.length = how.length → (settle r how' c)[i]? = some w) :
    (classes.foldl (settle r) how)[i]? = some w := by
  induction classes generalizing how with
  | nil => cases hmem
  | cons c classes ih =>
    rw [List.foldl_cons]
    by_cases hlater : i ∈ classes.flatten
    · apply ih hlater
      intro d hd hid how' hlength
      rw [length_settle] at hlength
      exact h d (List.mem_cons_of_mem c hd) hid how' hlength
    · rw [List.flatten_cons, List.mem_append] at hmem
      rw [settled_other hlater]
      exact h c List.mem_cons_self (hmem.resolve_right hlater) how rfl

end Round

/-! ## All rounds -/

def NamedBy (lh : List (List Char)) (i : ℕ) : Witness → Prop
  | .window r => minRadius ≤ r ∧ r ≤ maxRadius ∧ ∀ j < lh.length, signature lh j r = signature lh i r → j = i
  | .index => ∃ j < lh.length, j ≠ i ∧ signature lh j maxRadius = signature lh i maxRadius

section Rounds
variable {lh : List (List Char)} {how : List Witness} {r i : ℕ} {classes : List (List ℕ)}

/-- A line alone in its class is named by the round. -/
theorem settled_alone (hclasses : Grouped (fun i => signature lh i r) (List.range lh.length) classes)
    (hlength : how.length = lh.length) (hr : minRadius ≤ r ∧ r ≤ maxRadius) (hmem : [i] ∈ classes) :
    ∃ w, (classes.foldl (settle r) how)[i]? = some w ∧ NamedBy lh i w := by
  have hi : i < lh.length := List.mem_range.mp (hclasses.subset hmem (List.mem_singleton_self i))
  refine ⟨.window r, ?_, hr.1, hr.2, ?_⟩
  · apply settled (List.mem_flatten_of_mem hmem (List.mem_singleton_self i))
    intro c hc hic how' hlength'
    have hone : ∀ j ∈ c, j = i := by
      intro j hj
      obtain ⟨hjall, hkey⟩ := (hclasses.full c hc i hic j).mp hj
      exact hclasses.alone hmem hjall hkey
    have hc' : c = [i] := by
      have hrep : c = List.replicate c.length i := List.eq_replicate_iff.mpr ⟨rfl, hone⟩
      have hnodup := hclasses.nodup c hc
      rw [hrep, List.nodup_replicate] at hnodup
      have hpos := List.length_pos_of_mem hic
      have hlen : c.length = 1 := by omega
      rw [hrep, hlen, List.replicate_one]
    rw [hc', settle, List.getElem?_set_self (by omega)]
  · intro j hj hkey
    exact hclasses.alone hmem (List.mem_range.mpr hj) hkey

theorem settled_shared (hclasses : Grouped (fun i => signature lh i maxRadius) (List.range lh.length) classes)
    (hlength : how.length = lh.length) {c : List ℕ} (hc : c ∈ classes) (hmore : c.length ≠ 1) (hic : i ∈ c) :
    ∃ w, (classes.foldl (settle maxRadius) how)[i]? = some w ∧ NamedBy lh i w := by
  have hi : i < lh.length := List.mem_range.mp (hclasses.subset hc hic)
  obtain ⟨j, hj, hne, hkey⟩ := hclasses.shared hc hmore hic
  refine ⟨.index, ?_, j, List.mem_range.mp hj, hne, hkey⟩
  apply settled (List.mem_flatten_of_mem hc hic)
  intro d hd hid how' hlength'
  have hjd : j ∈ d := (hclasses.full d hd i hid j).mpr ⟨hj, hkey⟩
  unfold settle
  split
  · next k =>
    have hik : i = k := List.mem_singleton.mp hid
    have hjk : j = k := List.mem_singleton.mp hjd
    exact (hne (hjk.trans hik.symm)).elim
  · rw [if_pos le_rfl, foldl_set_getElem?, if_pos hid, List.getElem?_eq_getElem (by omega)]
    rfl

theorem refine_named (hlh : Marked lh) (left : ℕ) (hleft : left ≤ maxRadius - minRadius)
    (hclasses : Grouped (fun i => signature lh i (maxRadius - left)) (List.range lh.length) classes)
    (hlength : how.length = lh.length)
    (hdone : ∀ i < lh.length, i ∉ classes.flatten → ∃ w, how[i]? = some w ∧ NamedBy lh i w) :
    (refine lh left classes how).length = lh.length ∧
      ∀ i < lh.length, ∃ w, (refine lh left classes how)[i]? = some w ∧ NamedBy lh i w := by
  induction left generalizing classes how with
  | zero =>
    refine ⟨(length_foldl_settle _ _ _).trans hlength, ?_⟩
    intro i hi
    by_cases hmem : i ∈ classes.flatten
    · obtain ⟨c, hc, hic⟩ := List.mem_flatten.mp hmem
      by_cases hone : c.length = 1
      · obtain ⟨j, rfl⟩ := List.length_eq_one_iff.mp hone
        rw [List.mem_singleton.mp hic] at *
        exact settled_alone hclasses hlength (by decide) hc
      · exact settled_shared hclasses hlength hc hone hic
    · obtain ⟨w, hw, hnamed⟩ := hdone i hi hmem
      exact ⟨w, (settled_other hmem).trans hw, hnamed⟩
  | succ left ih =>
    have hradius : maxRadius - (left + 1) + 1 = maxRadius - left := by
      have hcap : left + 1 ≤ 59 := hleft
      have hmax : maxRadius = 64 := rfl
      omega
    apply ih (by omega)
    · rw [hradius]
      apply hclasses.split
      · intro i hi j hj hkey
        rw [← hradius] at hkey
        exact signature_smaller hlh (List.mem_range.mp hi) (List.mem_range.mp hj) hkey
      · exact List.filter_sublist.subset
    · exact (length_foldl_settle _ _ _).trans hlength
    · intro i hi hmem
      by_cases hbefore : i ∈ classes.flatten
      · obtain ⟨c, hc, hic⟩ := List.mem_flatten.mp hbefore
        by_cases hone : c.length = 1
        · obtain ⟨j, rfl⟩ := List.length_eq_one_iff.mp hone
          rw [List.mem_singleton.mp hic] at *
          apply settled_alone hclasses hlength _ hc
          have hcap : left + 1 ≤ 59 := hleft
          show 5 ≤ 64 - (left + 1) ∧ 64 - (left + 1) ≤ 64
          omega
        · have hstill : c ∈ classes.filter collides := List.mem_filter.mpr ⟨hc, by simpa [collides] using hone⟩
          have hgrouped : i ∈ (group (fun i => signature lh i (maxRadius - (left + 1) + 1)) c).flatten :=
            mem_flatten_group.mpr hic
          obtain ⟨d, hd, hid⟩ := List.mem_flatten.mp hgrouped
          exact (hmem (List.mem_flatten_of_mem (List.mem_flatMap.mpr ⟨c, hstill, hd⟩) hid)).elim
      · obtain ⟨w, hw, hnamed⟩ := hdone i hi hbefore
        exact ⟨w, (settled_other hbefore).trans hw, hnamed⟩

theorem named_by (hlh : Marked lh) : (named lh).length = lh.length ∧
    ∀ i < lh.length, ∃ w, (named lh)[i]? = some w ∧ NamedBy lh i w := by
  have hfloor : maxRadius - (maxRadius - minRadius) = minRadius := rfl
  refine refine_named hlh (maxRadius - minRadius) le_rfl ?_ ?_ ?_
  · rw [hfloor]
    exact group_classes List.nodup_range
  · exact List.length_replicate
  · intro i hi hmem
    exact (hmem (mem_flatten_group.mpr (List.mem_range.mpr hi))).elim

end Rounds

end Ral.Edit
