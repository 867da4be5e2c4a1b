import Mathlib.Data.List.Perm.Subperm
import Ral.Terminal.Ansi

/-! # What is left on screen

Of the text less its escape sequences, each character overwrites the cell the column stands at.
What is left has nothing more to drop or to overwrite.
-/

namespace Ral.Terminal
open Ral.Text (bytes size slice splitAt?)

def backspace : Char := Char.ofNat 0x08

def overwrite : List Char → List Char → ℕ → List Char
  | [], line, _ => line
  | c :: rest, line, col =>
    if c = '\n' then line ++ '\n' :: overwrite rest [] 0
    else if c = '\r' then overwrite rest line 0
    else if c = backspace then overwrite rest line (col - 1)
    else overwrite rest (put line col c) (col + 1)

theorem head_byte (c : Char) (rest : List Char) : ∃ b, (bytes (c :: rest))[0]? = some b ∧
    ∀ d : Char, d.toNat < 128 → (b = UInt8.ofNat d.toNat ↔ c = d) := by
  obtain ⟨b, hget, -⟩ := head_bytes c rest
  refine ⟨b, hget, fun d hd => ?_⟩
  have hiff : (bytes (c :: rest)).head? = some (UInt8.ofNat d.toNat) ↔ (c :: rest).head? = some d :=
    head?_bytes_eq hd
  rw [List.head?_eq_getElem?, hget, List.head?_cons] at hiff
  simpa using hiff

theorem visibleFrom_eq {front rest out line : List Char} {col passes : ℕ} (h : rest.length < passes) :
    visibleFrom (front ++ rest) passes (size front) out line col = some (out ++ overwrite (plain rest) line col) := by
  induction passes generalizing front rest out line col with
  | zero => omega
  | succ passes ih =>
    rw [visibleFrom, show (bytes (front ++ rest))[size front]? = (bytes rest)[0]? from getElem?_bytes front rest 0]
    cases rest with
    | nil => simp [plain_nil, overwrite]
    | cons c rest =>
      rw [List.length_cons] at h
      by_cases hc : c = esc
      · subst hc
        obtain ⟨front', hfront, hsize⟩ := exists_skipped front rest
        have hle := (skipEscape_suffix rest).length_le
        rw [bytes_esc, plain_esc]
        simp only [List.getElem?_cons_zero, if_true]
        rw [hsize, hfront]
        exact ih (by omega)
      · obtain ⟨b, hget, hbyte⟩ := head_byte c rest
        have hesc : b = escByte ↔ c = esc := hbyte esc (by decide)
        have hnewline : b = 0x0a ↔ c = '\n' := hbyte '\n' (by decide)
        have hreturn : b = 0x0d ↔ c = '\r' := hbyte '\r' (by decide)
        have hback : b = 0x08 ↔ c = backspace := hbyte backspace (by decide)
        have hnext : front ++ c :: rest = (front ++ [c]) ++ rest := by simp
        have hsize : size (front ++ [c]) = size front + c.utf8Size := by simp
        have hone (hascii : c.toNat < 128) : size front + 1 = size (front ++ [c]) := by
          rw [hsize, Text.utf8Size_ascii hascii]
        rw [plain_cons hc, overwrite, hget]
        simp only [hesc, if_neg hc, hnewline, hreturn, hback]
        split
        · next heq =>
            subst heq
            rw [hone (by decide), hnext, ih (by omega)]
            simp
        · split
          · next heq =>
              subst heq
              rw [hone (by decide), hnext, ih (by omega)]
          · split
            · next heq =>
                subst heq
                rw [hone (by decide), hnext, ih (by omega)]
            · rw [Text.splitAt?_append, Option.bind_some]
              simp only [List.head?_cons]
              rw [← hsize, hnext, ih (by omega)]

theorem visible_eq (s : List Char) : visible s = some (overwrite (plain s) [] 0) := by
  have hlen := Text.length_le_size s
  exact @visibleFrom_eq [] s [] _ _ _ (by omega)

/-! ## What is dropped -/

theorem plain_sublist (s : List Char) : (plain s).Sublist s := by
  induction s using plain.induct with
  | case1 => rw [plain_nil]
  | case2 rest ih =>
    rw [plain_esc]
    exact (ih.trans (skipEscape_suffix rest).sublist).cons _
  | case3 c rest hc ih =>
    rw [plain_cons hc]
    exact ih.cons_cons c

theorem esc_not_mem_plain (s : List Char) : esc ∉ plain s := by
  induction s using plain.induct with
  | case1 => simp [plain_nil]
  | case2 rest ih => rwa [plain_esc]
  | case3 c rest hc ih =>
    rw [plain_cons hc]
    simp [ih, Ne.symm hc]

theorem plain_eq_self {s : List Char} (h : esc ∉ s) : plain s = s := by
  have happend := plain_append h []
  rwa [List.append_nil, plain_nil, List.append_nil] at happend

/-! ## What is overwritten -/

/-- A character that moves the column and leaves nothing. -/
def Moves (c : Char) : Prop := c = '\r' ∨ c = backspace

theorem mem_put {line : List Char} {col : ℕ} {ch c : Char} (h : c ∈ put line col ch) : c ∈ line ∨ c = ch := by
  unfold put at h
  split at h
  · rcases List.mem_or_eq_of_mem_set h with h | h
    · exact .inl h
    · exact .inr h
  · simpa using h

/-- What is left is the text's own, less what moves the column. -/
theorem mem_overwrite {s line : List Char} {col : ℕ} {c : Char} (h : c ∈ overwrite s line col) :
    c ∈ line ∨ (c ∈ s ∧ ¬ Moves c) := by
  induction s generalizing line col with
  | nil => exact .inl h
  | cons d rest ih =>
    unfold overwrite at h
    split at h
    · next hnewline =>
        subst hnewline
        rcases List.mem_append.mp h with h | h
        · exact .inl h
        · rcases List.mem_cons.mp h with rfl | h
          · exact .inr ⟨List.mem_cons_self .., by simp [Moves, backspace]⟩
          · rcases ih h with h | ⟨hmem, hmoves⟩
            · simp at h
            · exact .inr ⟨List.mem_cons_of_mem _ hmem, hmoves⟩
    · split at h
      · rcases ih h with h | ⟨hmem, hmoves⟩
        · exact .inl h
        · exact .inr ⟨List.mem_cons_of_mem _ hmem, hmoves⟩
      · next hreturn =>
          split at h
          · rcases ih h with h | ⟨hmem, hmoves⟩
            · exact .inl h
            · exact .inr ⟨List.mem_cons_of_mem _ hmem, hmoves⟩
          · next hback =>
              rcases ih h with h | ⟨hmem, hmoves⟩
              · rcases mem_put h with h | rfl
                · exact .inl h
                · exact .inr ⟨List.mem_cons_self .., by rintro (h | h) <;> contradiction⟩
              · exact .inr ⟨List.mem_cons_of_mem _ hmem, hmoves⟩

theorem overwrite_eq_append {s line : List Char} (h : ∀ c ∈ s, ¬ Moves c) :
    overwrite s line line.length = line ++ s := by
  induction s generalizing line with
  | nil => simp [overwrite]
  | cons c rest ih =>
    have hrest : ∀ d ∈ rest, ¬ Moves d := fun d hd => h d (List.mem_cons_of_mem _ hd)
    have hc : ¬ Moves c := h c (List.mem_cons_self ..)
    unfold overwrite
    split
    · next hnewline =>
        rw [hnewline]
        have hempty := @ih [] hrest
        rw [List.length_nil, List.nil_append] at hempty
        rw [hempty]
    · rw [if_neg fun h => hc (.inl h), if_neg fun h => hc (.inr h), put, if_neg (by omega)]
      have hlonger := @ih (line ++ [c]) hrest
      rw [List.length_append, List.length_singleton] at hlonger
      rw [hlonger, List.append_assoc, List.singleton_append]

theorem overwrite_eq_self {s : List Char} (h : ∀ c ∈ s, ¬ Moves c) : overwrite s [] 0 = s := by
  have happend := @overwrite_eq_append s [] h
  rwa [List.length_nil, List.nil_append] at happend

/-! ## Both are safe -/

/-- Nothing is split, no `ESC` is left and nothing more would be dropped. -/
theorem strip_and_visible_safe (s : List Char) : ∃ stripped seen, strip s = some stripped ∧ visible s = some seen ∧
    esc ∉ stripped ∧ esc ∉ seen ∧ '\r' ∉ seen ∧ backspace ∉ seen ∧
    strip stripped = some stripped ∧ visible seen = some seen ∧
    ('\r' ∉ s → backspace ∉ s → stripped = seen) := by
  have hstill : ∀ c ∈ overwrite (plain s) [] 0, c ∈ plain s ∧ ¬ Moves c := by
    intro c hc
    exact (mem_overwrite hc).resolve_left (List.not_mem_nil)
  have hesc : esc ∉ overwrite (plain s) [] 0 := fun h => esc_not_mem_plain s (hstill _ h).1
  refine ⟨plain s, overwrite (plain s) [] 0, strip_eq s, visible_eq s, esc_not_mem_plain s, hesc,
    fun h => (hstill _ h).2 (.inl rfl), fun h => (hstill _ h).2 (.inr rfl), ?_, ?_, ?_⟩
  · rw [strip_eq, plain_eq_self (esc_not_mem_plain s)]
  · rw [visible_eq, plain_eq_self hesc, overwrite_eq_self fun c hc => (hstill c hc).2]
  · intro hreturn hback
    symm
    apply overwrite_eq_self
    intro c hc hmoves
    have hmem := (plain_sublist s).subset hc
    rcases hmoves with rfl | rfl
    · exact hreturn hmem
    · exact hback hmem

/-! ## What is kept -/

theorem put_subperm (line : List Char) (col : ℕ) (ch : Char) : (put line col ch).Subperm (ch :: line) := by
  unfold put
  split
  · next hlt =>
    rw [List.set_eq_take_append_cons_drop, if_pos hlt]
    refine List.perm_middle.subperm.trans ((List.subperm_cons ch).mpr (List.Sublist.subperm ?_))
    have hsplit := (List.Sublist.refl (line.take col)).append
      (List.sublist_cons_self (line.get ⟨col, hlt⟩) (line.drop (col + 1)))
    rwa [List.get_eq_getElem, List.getElem_cons_drop, List.take_append_drop] at hsplit
  · exact (List.perm_append_singleton ch line).subperm

theorem overwrite_subperm (s line : List Char) (col : ℕ) : (overwrite s line col).Subperm (line ++ s) := by
  induction s generalizing line col with
  | nil => simp [overwrite, List.Subperm.refl]
  | cons c rest ih =>
    have hrest : (line ++ rest).Subperm (line ++ c :: rest) :=
      (List.Sublist.append_left (List.sublist_cons_self c rest) line).subperm
    unfold overwrite
    split
    · next hnewline =>
      subst hnewline
      exact (List.subperm_append_left line).mpr ((List.subperm_cons _).mpr (ih [] 0))
    · split
      · exact (ih line 0).trans hrest
      · split
        · exact (ih line (col - 1)).trans hrest
        · refine (ih (put line col c) (col + 1)).trans ?_
          refine ((List.subperm_append_right rest).mpr (put_subperm line col c)).trans ?_
          exact List.perm_middle.symm.subperm

theorem overwrite_newline (a b line : List Char) (col : ℕ) :
    overwrite (a ++ '\n' :: b) line col = overwrite a line col ++ '\n' :: overwrite b [] 0 := by
  induction a generalizing line col with
  | nil => simp [overwrite]
  | cons c a ih =>
    rw [List.cons_append, overwrite, overwrite]
    split
    · rw [ih, List.append_assoc, List.cons_append]
    · split
      · exact ih line 0
      · split
        · exact ih line (col - 1)
        · exact ih (put line col c) (col + 1)

/-- What is stripped is the text with parts left out, what is seen rearranges part of that, and no line changes
another. -/
theorem strip_and_visible_keep (s : List Char) : ∃ stripped seen, strip s = some stripped ∧ visible s = some seen ∧
    stripped.Sublist s ∧ seen.Subperm stripped ∧ ∀ a b, stripped = a ++ '\n' :: b →
      ∃ x y, visible a = some x ∧ visible b = some y ∧ seen = x ++ '\n' :: y := by
  refine ⟨plain s, overwrite (plain s) [] 0, strip_eq s, visible_eq s, plain_sublist s, overwrite_subperm _ [] 0, ?_⟩
  intro a b hlines
  have hesc := esc_not_mem_plain s
  rw [hlines, List.mem_append, List.mem_cons] at hesc
  refine ⟨_, _, visible_eq a, visible_eq b, ?_⟩
  rw [hlines, overwrite_newline, plain_eq_self fun h => hesc (.inl h), plain_eq_self fun h => hesc (.inr (.inr h))]

end Ral.Terminal
