import Mathlib.Data.List.Basic

/-! # Terminated lines

A sequence of lines, each closed by a terminator no line holds, read back from
any prefix of its laid-out form.
-/

namespace Ral.Lines

variable {α : Type*}

/-! ## Laying lines out -/

def frame (nl : α) (lines : List (List α)) : List α := lines.flatMap fun line => line ++ [nl]

/-- The items whose lines lie, terminator included, in the first `n` elements of the frame. -/
def whole {β : Type*} (line : β → List α) : List β → ℕ → List β
  | [], _ => []
  | item :: items, n =>
    if (line item).length + 1 ≤ n then item :: whole line items (n - ((line item).length + 1))
    else []

section Frame
variable {nl : α}

@[simp] theorem frame_nil : frame nl ([] : List (List α)) = [] := rfl

@[simp] theorem frame_cons (line : List α) (lines : List (List α)) :
    frame nl (line :: lines) = line ++ nl :: frame nl lines := by
  simp [frame]

@[simp] theorem frame_append (xs ys : List (List α)) : frame nl (xs ++ ys) = frame nl xs ++ frame nl ys := by
  simp [frame]

/-- A prefix of a frame is the frame of the items it wholly holds, and the start of the next. -/
theorem take_frame {β : Type*} {line : β → List α} {items : List β}
    (h : ∀ item ∈ items, nl ∉ line item) {tail : List α} (ht : nl ∉ tail) (n : ℕ) :
    ∃ rest, nl ∉ rest ∧
      (frame nl (items.map line) ++ tail).take n = frame nl ((whole line items n).map line) ++ rest := by
  induction items generalizing n with
  | nil =>
    refine ⟨tail.take n, fun hm => ht (List.mem_of_mem_take hm), ?_⟩
    simp [frame, whole]
  | cons item items ih =>
    have hitem := h item List.mem_cons_self
    have hitems := fun i hi => h i (List.mem_cons_of_mem _ hi)
    rw [whole]
    split
    · next hn =>
        obtain ⟨rest, hrest, he⟩ := ih hitems (n - ((line item).length + 1))
        refine ⟨rest, hrest, ?_⟩
        have hlen : (line item ++ [nl]).length ≤ n := by simpa using hn
        have hsplit : frame nl ((item :: items).map line) ++ tail
            = (line item ++ [nl]) ++ (frame nl (items.map line) ++ tail) := by simp [frame]
        have hsub : n - (line item ++ [nl]).length = n - ((line item).length + 1) := by simp
        rw [hsplit, List.take_append, List.take_of_length_le hlen, hsub, he]
        simp [frame]
    · next hn =>
        refine ⟨(line item ++ nl :: (frame nl (items.map line) ++ tail)).take n, ?_, ?_⟩
        · rw [List.take_append_of_le_length (by omega)]
          exact fun hm => hitem (List.mem_of_mem_take hm)
        · simp [frame]

end Frame

/-! ## Reading them back -/

section Read
variable [DecidableEq α] (nl : α)

/-- What successive reads up to the terminator give; only the last may lack one. -/
def pieces : List α → List (List α)
  | [] => []
  | b :: rest =>
    if b = nl then [b] :: pieces rest
    else
      match pieces rest with
      | [] => [[b]]
      | piece :: more => (b :: piece) :: more

/-- A piece without its terminator. -/
def strip (piece : List α) : List α :=
  if piece.getLast? = some nl then piece.dropLast else piece

/-- What stands between terminators, the last piece only if it is not empty. -/
def split (xs : List α) : List (List α) := (pieces nl xs).map (strip nl)

variable {nl}

@[simp] theorem strip_line (line : List α) : strip nl (line ++ [nl]) = line := by
  simp [strip]

theorem pieces_line {line : List α} (h : nl ∉ line) (rest : List α) :
    pieces nl (line ++ nl :: rest) = (line ++ [nl]) :: pieces nl rest := by
  induction line with
  | nil => simp [pieces]
  | cons b line ih =>
    have hb : b ≠ nl := fun he => h (he ▸ List.mem_cons_self)
    have hline : nl ∉ line := fun hm => h (List.mem_cons_of_mem _ hm)
    simp [pieces, hb, ih hline]

/-- What no terminator closes is one piece, or none. -/
theorem pieces_tail {tail : List α} (h : nl ∉ tail) :
    pieces nl tail = if tail = [] then [] else [tail] := by
  induction tail with
  | nil => rfl
  | cons b tail ih =>
    have hb : b ≠ nl := fun he => h (he ▸ List.mem_cons_self)
    have htail : nl ∉ tail := fun hm => h (List.mem_cons_of_mem _ hm)
    rw [pieces, if_neg hb, ih htail]
    cases tail with
    | nil => rfl
    | cons c tail => rfl

theorem pieces_frame {lines : List (List α)} (h : ∀ line ∈ lines, nl ∉ line) (tail : List α) :
    pieces nl (frame nl lines ++ tail) = lines.map (· ++ [nl]) ++ pieces nl tail := by
  induction lines with
  | nil => rfl
  | cons line lines ih =>
    have hline := h line List.mem_cons_self
    have hlines := fun l hl => h l (List.mem_cons_of_mem _ hl)
    rw [frame_cons, List.append_assoc, List.cons_append, pieces_line hline, ih hlines]
    rfl

theorem split_frame {lines : List (List α)} (h : ∀ line ∈ lines, nl ∉ line) :
    split nl (frame nl lines) = lines := by
  have hp := pieces_frame h []
  rw [List.append_nil] at hp
  rw [split, hp, pieces, List.append_nil, List.map_map]
  conv_rhs => rw [← List.map_id lines]
  exact List.map_congr_left fun line _ => strip_line line

end Read

end Ral.Lines
