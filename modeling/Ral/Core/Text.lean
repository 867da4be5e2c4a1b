import Mathlib.Algebra.BigOperators.Group.List.Basic
import Mathlib.Algebra.GroupWithZero.Nat

/-! # A cursor over text

The characters read and those ahead. Offsets count UTF-8 bytes, so every place a cursor can
stand is on a character boundary.
-/

namespace Ral.Text

def size (text : List Char) : ℕ := (text.map Char.utf8Size).sum

@[simp] theorem size_nil : size [] = 0 := rfl

@[simp] theorem size_cons (c : Char) (text : List Char) : size (c :: text) = c.utf8Size + size text :=
  List.sum_cons

@[simp] theorem size_append (xs ys : List Char) : size (xs ++ ys) = size xs + size ys := by
  simp [size]

@[simp] theorem size_reverse (text : List Char) : size text.reverse = size text := by
  simp [size, List.sum_reverse]

theorem length_le_size (text : List Char) : text.length ≤ size text := by
  induction text with
  | nil => exact Nat.zero_le _
  | cons c text ih =>
    have hc := c.utf8Size_pos
    rw [size_cons, List.length_cons]
    omega

def Boundary (text : List Char) (n : ℕ) : Prop := ∃ front, front <+: text ∧ size front = n

/-- `before` has the nearest character first. -/
structure Cursor where
  before : List Char
  after : List Char
deriving DecidableEq

namespace Cursor

/-- Byte offset of the next character. -/
def pos (c : Cursor) : ℕ := size c.before

def advance (n : ℕ) (c : Cursor) : Cursor := ⟨(c.after.take n).reverse ++ c.before, c.after.drop n⟩

/-- Reading `text` leads from one cursor to the other. -/
structure Moves (c : Cursor) (text : List Char) (c' : Cursor) : Prop where
  after : c.after = text ++ c'.after
  before : c'.before = text.reverse ++ c.before

theorem Moves.refl (c : Cursor) : c.Moves [] c := ⟨rfl, rfl⟩

theorem Moves.trans {a b c : Cursor} {xs ys : List Char} (hx : a.Moves xs b) (hy : b.Moves ys c) :
    a.Moves (xs ++ ys) c := by
  constructor
  · rw [hx.after, hy.after, List.append_assoc]
  · rw [hy.before, hx.before, List.reverse_append, List.append_assoc]

theorem Moves.pos_eq {a b : Cursor} {text : List Char} (h : a.Moves text b) :
    b.pos = a.pos + size text := by
  simp only [pos, h.before, size_append, size_reverse]
  omega

theorem Moves.length_eq {a b : Cursor} {text : List Char} (h : a.Moves text b) :
    a.after.length = text.length + b.after.length := by
  rw [h.after, List.length_append]

theorem moves_advance (c : Cursor) (n : ℕ) : c.Moves (c.after.take n) (c.advance n) :=
  ⟨(List.take_append_drop n c.after).symm, rfl⟩

end Cursor

/-! ## Text as bytes

The UTF-8 bytes of a text, which of them ASCII characters are, and slices between byte offsets,
which there are only between character boundaries.
-/

def bytes (text : List Char) : List UInt8 := text.flatMap String.utf8EncodeChar

@[simp] theorem bytes_nil : bytes [] = [] := rfl

@[simp] theorem bytes_cons (c : Char) (text : List Char) : bytes (c :: text) = String.utf8EncodeChar c ++ bytes text :=
  List.flatMap_cons

@[simp] theorem bytes_append (xs ys : List Char) : bytes (xs ++ ys) = bytes xs ++ bytes ys := by
  simp [bytes]

@[simp] theorem length_bytes (text : List Char) : (bytes text).length = size text := by
  induction text with
  | nil => rfl
  | cons c text ih => simp [ih]

/-! ## ASCII -/

theorem encode_ascii {c : Char} (h : c.toNat < 128) : String.utf8EncodeChar c = [UInt8.ofNat c.toNat] := by
  have hc : c.val.toNat ≤ 127 := Nat.lt_succ_iff.mp h
  unfold String.utf8EncodeChar
  exact if_pos hc

theorem utf8Size_ascii {c : Char} (h : c.toNat < 128) : c.utf8Size = 1 := by
  rw [← String.length_utf8EncodeChar, encode_ascii h]
  rfl

theorem toNat_ascii {c : Char} (h : c.toNat < 128) : (UInt8.ofNat c.toNat).toNat = c.toNat := by
  rw [UInt8.toNat_ofNat']
  omega

/-- An ASCII byte is its character's alone. -/
theorem ascii_inj {c d : Char} (hc : c.toNat < 128) (hd : d.toNat < 128) :
    UInt8.ofNat c.toNat = UInt8.ofNat d.toNat ↔ c = d := by
  constructor
  · intro h
    have hnat := congrArg UInt8.toNat h
    rw [toNat_ascii hc, toNat_ascii hd] at hnat
    exact Char.toNat_inj.mp hnat
  · rintro rfl
    rfl

/-- No byte of any other character is an ASCII one. -/
theorem encode_wide {c : Char} (h : 128 ≤ c.toNat) {b : UInt8} (hb : b ∈ String.utf8EncodeChar c) : 128 ≤ b.toNat := by
  have hc : ¬ c.val.toNat ≤ 127 := Nat.not_le.mpr h
  unfold String.utf8EncodeChar at hb
  simp only [if_neg hc] at hb
  split at hb
  · simp only [List.mem_cons, List.not_mem_nil, or_false] at hb
    rcases hb with rfl | rfl <;> rw [UInt8.toNat_ofNat'] <;> omega
  · split at hb
    · simp only [List.mem_cons, List.not_mem_nil, or_false] at hb
      rcases hb with rfl | rfl | rfl <;> rw [UInt8.toNat_ofNat'] <;> omega
    · simp only [List.mem_cons, List.not_mem_nil, or_false] at hb
      rcases hb with rfl | rfl | rfl | rfl <;> rw [UInt8.toNat_ofNat'] <;> omega

/-! ## Slices -/

/-- What stands before a byte offset and after it, where that is a character boundary. -/
def splitAt? : List Char → ℕ → Option (List Char × List Char)
  | text, 0 => some ([], text)
  | [], _ + 1 => none
  | c :: text, n + 1 =>
    if c.utf8Size ≤ n + 1 then (splitAt? text (n + 1 - c.utf8Size)).map fun (a, b) => (c :: a, b) else none

/-- What stands between two byte offsets. -/
def slice (text : List Char) (start stop : ℕ) : Option (List Char) := do
  let (front, _) ← splitAt? text stop
  let (_, piece) ← splitAt? front start
  return piece

theorem splitAt?_append (xs ys : List Char) : splitAt? (xs ++ ys) (size xs) = some (xs, ys) := by
  induction xs with
  | nil => simp [splitAt?]
  | cons c xs ih =>
    have hpos := c.utf8Size_pos
    obtain ⟨n, hn⟩ : ∃ n, size (c :: xs) = n + 1 := Nat.exists_eq_succ_of_ne_zero (by rw [size_cons]; omega)
    rw [List.cons_append, hn, splitAt?, if_pos (by rw [size_cons] at hn; omega)]
    rw [size_cons] at hn
    rw [show n + 1 - c.utf8Size = size xs by omega, ih]
    rfl

theorem slice_append (front piece rest : List Char) :
    slice (front ++ piece ++ rest) (size front) (size (front ++ piece)) = some piece := by
  simp only [slice, splitAt?_append, Option.bind_eq_bind, Option.bind_some]
  rfl

end Ral.Text
