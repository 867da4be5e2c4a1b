import Ral.Core.Text

/-! # Escape sequences

Their length is measured on bytes, and what is left of a text is cut between byte offsets, so
a cut inside a character is a failure of its own. `strip` drops the sequences; `visible` goes on
to overwrite as a terminal does.
-/

namespace Ral.Terminal
open Ral.Text (bytes size slice splitAt?)

def escByte : UInt8 := 0x1b

/-! ## The scan -/

/-- Through the final byte of a control sequence, or to the end. -/
def csiLen : List UInt8 → ℕ
  | [] => 0
  | b :: rest => if 0x40 ≤ b.toNat ∧ b.toNat ≤ 0x7e then 1 else 1 + csiLen rest

/-- Through the bell or the terminator `ESC \` of a string sequence, or to the end. -/
def stringLen : List UInt8 → ℕ
  | [] => 0
  | b :: rest =>
    if b = 0x07 then 1
    else if b = escByte ∧ rest.head? = some 0x5c then 2
    else 1 + stringLen rest

/-- Byte length of the escape sequence at `i`, which must be an `ESC`. Before a byte that is not
ASCII the `ESC` stands alone. -/
def escapeSeqLen (text : List UInt8) (i : ℕ) : ℕ :=
  match text[i + 1]? with
  | some b =>
    if b = 0x5b then 2 + csiLen (text.drop (i + 2))
    else if b ∈ [0x5d, 0x50, 0x58, 0x5e, 0x5f] then 2 + stringLen (text.drop (i + 2))
    else if b.toNat < 128 then 2
    else 1
  | none => 1

/-- From a byte offset on; `none` where a slice would split a character or `passes` run out. -/
def stripFrom (s : List Char) : ℕ → ℕ → List Char → Option (List Char)
  | 0, _, _ => none
  | passes + 1, i, out =>
    match (bytes s)[i]? with
    | none => some out
    | some b =>
      if b = escByte then stripFrom s passes (i + escapeSeqLen (bytes s) i) out
      else
        let stop := i + (((bytes s).drop i).takeWhile (· ≠ escByte)).length
        (slice s i stop).bind fun piece => stripFrom s passes stop (out ++ piece)

/-- Drop every escape sequence, leaving the visible text. -/
def strip (s : List Char) : Option (List Char) := stripFrom s (size s + 1) 0 []

def put (line : List Char) (col : ℕ) (ch : Char) : List Char :=
  if col < line.length then line.set col ch else line ++ [ch]

def visibleFrom (s : List Char) : ℕ → ℕ → List Char → List Char → ℕ → Option (List Char)
  | 0, _, _, _, _ => none
  | passes + 1, i, out, line, col =>
    match (bytes s)[i]? with
    | none => some (out ++ line)
    | some b =>
      if b = escByte then visibleFrom s passes (i + escapeSeqLen (bytes s) i) out line col
      else if b = 0x0a then visibleFrom s passes (i + 1) (out ++ line ++ ['\n']) [] 0
      else if b = 0x0d then visibleFrom s passes (i + 1) out line 0
      else if b = 0x08 then visibleFrom s passes (i + 1) out line (col - 1)
      else
        (splitAt? s i).bind fun (_, rest) =>
          match rest.head? with
          | none => some (out ++ line)
          | some ch => visibleFrom s passes (i + ch.utf8Size) out (put line col ch) (col + 1)

/-- What a terminal would leave on screen. -/
def visible (s : List Char) : Option (List Char) := visibleFrom s (size s + 1) 0 [] [] 0

/-! ## The same of characters -/

def esc : Char := Char.ofNat 0x1b

def skipCsi : List Char → List Char
  | [] => []
  | c :: rest => if 0x40 ≤ c.toNat ∧ c.toNat ≤ 0x7e then rest else skipCsi rest

def skipString : List Char → List Char
  | [] => []
  | c :: rest =>
    if c.toNat = 0x07 then rest
    else if c = esc ∧ rest.head? = some '\\' then rest.tail
    else skipString rest

/-- What an `ESC` leaves of the text after it. -/
def skipEscape : List Char → List Char
  | [] => []
  | c :: rest =>
    if c = '[' then skipCsi rest
    else if c ∈ [']', 'P', 'X', '^', '_'] then skipString rest
    else if c.toNat < 128 then rest
    else c :: rest

theorem skipCsi_suffix (text : List Char) : skipCsi text <:+ text := by
  induction text with
  | nil => exact List.suffix_refl _
  | cons c rest ih =>
    unfold skipCsi
    split
    · exact List.suffix_cons c rest
    · exact ih.trans (List.suffix_cons c rest)

theorem skipString_suffix (text : List Char) : skipString text <:+ text := by
  induction text with
  | nil => exact List.suffix_refl _
  | cons c rest ih =>
    unfold skipString
    split
    · exact List.suffix_cons c rest
    · split
      · exact (List.tail_suffix rest).trans (List.suffix_cons c rest)
      · exact ih.trans (List.suffix_cons c rest)

theorem skipEscape_suffix (text : List Char) : skipEscape text <:+ text := by
  cases text with
  | nil => exact List.suffix_refl _
  | cons c rest =>
    simp only [skipEscape]
    split
    · exact (skipCsi_suffix rest).trans (List.suffix_cons c rest)
    · split
      · exact (skipString_suffix rest).trans (List.suffix_cons c rest)
      · split
        · exact List.suffix_cons c rest
        · exact List.suffix_refl _

/-- The text less its escape sequences. -/
def plain : List Char → List Char
  | [] => []
  | c :: rest => if c = esc then plain (skipEscape rest) else c :: plain rest
termination_by text => text.length
decreasing_by
  · have hle := (skipEscape_suffix rest).length_le
    simp only [List.length_cons]
    omega
  · simp

/-! ## Bytes and characters agree -/

theorem csiLen_append {wide rest : List UInt8} (h : ∀ b ∈ wide, 128 ≤ b.toNat) :
    csiLen (wide ++ rest) = wide.length + csiLen rest := by
  induction wide with
  | nil => simp
  | cons b wide ih =>
    have hb : 128 ≤ b.toNat := h b (List.mem_cons_self ..)
    rw [List.cons_append, csiLen, if_neg (by omega), ih fun b hb => h b (List.mem_cons_of_mem _ hb), List.length_cons]
    omega

theorem stringLen_append {wide rest : List UInt8} (h : ∀ b ∈ wide, 128 ≤ b.toNat) :
    stringLen (wide ++ rest) = wide.length + stringLen rest := by
  induction wide with
  | nil => simp
  | cons b wide ih =>
    have hb : 128 ≤ b.toNat := h b (List.mem_cons_self ..)
    have hbell : b ≠ 0x07 := by
      rintro rfl
      simp at hb
    have hesc : b ≠ escByte := by
      rintro rfl
      simp [escByte] at hb
    rw [List.cons_append, stringLen, if_neg hbell, if_neg (fun h => hesc h.1),
      ih fun b hb => h b (List.mem_cons_of_mem _ hb), List.length_cons]
    omega

theorem csiLen_bytes (text : List Char) : csiLen (bytes text) + size (skipCsi text) = size text := by
  induction text with
  | nil => rfl
  | cons c rest ih =>
    rw [Text.bytes_cons, Text.size_cons]
    rcases Nat.lt_or_ge c.toNat 128 with hascii | hwide
    · have hsize : c.utf8Size = 1 := Text.utf8Size_ascii hascii
      rw [Text.encode_ascii hascii, List.singleton_append, csiLen, skipCsi, Text.toNat_ascii hascii]
      split
      · omega
      · omega
    · rw [csiLen_append fun b hb => Text.encode_wide hwide hb, String.length_utf8EncodeChar, skipCsi, if_neg (by omega)]
      omega

theorem head?_bytes_eq {text : List Char} {d : Char} (hd : d.toNat < 128) :
    (bytes text).head? = some (UInt8.ofNat d.toNat) ↔ text.head? = some d := by
  cases text with
  | nil => simp
  | cons c rest =>
    rcases Nat.lt_or_ge c.toNat 128 with hascii | hwide
    · rw [Text.bytes_cons, Text.encode_ascii hascii, List.singleton_append, List.head?_cons, List.head?_cons,
        Option.some.injEq, Option.some.injEq, Text.ascii_inj hascii hd]
    · constructor
      · intro h
        have hmem : UInt8.ofNat d.toNat ∈ String.utf8EncodeChar c := by
          rw [Text.bytes_cons, List.head?_append_of_ne_nil _ String.utf8EncodeChar_ne_nil] at h
          exact List.mem_of_mem_head? h
        have hbyte := Text.encode_wide hwide hmem
        rw [Text.toNat_ascii hd] at hbyte
        omega
      · intro h
        cases h
        omega

theorem stringLen_bytes (text : List Char) : stringLen (bytes text) + size (skipString text) = size text := by
  induction text with
  | nil => rfl
  | cons c rest ih =>
    rw [Text.bytes_cons, Text.size_cons]
    rcases Nat.lt_or_ge c.toNat 128 with hascii | hwide
    · have hsize : c.utf8Size = 1 := Text.utf8Size_ascii hascii
      have hbell : UInt8.ofNat c.toNat = 0x07 ↔ c.toNat = 0x07 := by
        rw [← UInt8.toNat_inj, Text.toNat_ascii hascii]
        rfl
      have hesc : UInt8.ofNat c.toNat = escByte ↔ c = esc := Text.ascii_inj (d := esc) hascii (by decide)
      have hslash : (bytes rest).head? = some 0x5c ↔ rest.head? = some '\\' := head?_bytes_eq (d := '\\') (by decide)
      rw [Text.encode_ascii hascii, List.singleton_append, stringLen, skipString]
      simp only [hbell, hesc, hslash]
      split
      · omega
      · split
        · next hterminator =>
            cases rest with
            | nil => cases hterminator.2
            | cons d rest =>
              obtain rfl : d = '\\' := by simpa using hterminator.2
              have hd : ('\\').utf8Size = 1 := by decide
              rw [List.tail_cons, Text.size_cons]
              omega
        · omega
    · have hbell : c.toNat ≠ 0x07 := by omega
      have hesc : c ≠ esc := by
        rintro rfl
        revert hwide
        decide
      rw [stringLen_append fun b hb => Text.encode_wide hwide hb, String.length_utf8EncodeChar, skipString, if_neg hbell,
        if_neg fun h => hesc h.1]
      omega

theorem getElem?_bytes (front rest : List Char) (k : ℕ) : (bytes (front ++ rest))[size front + k]? = (bytes rest)[k]? := by
  rw [Text.bytes_append, List.getElem?_append_right (by simp), Text.length_bytes, Nat.add_sub_cancel_left]

theorem drop_bytes (front rest : List Char) (k : ℕ) : (bytes (front ++ rest)).drop (size front + k) = (bytes rest).drop k := by
  rw [Text.bytes_append, ← Text.length_bytes front, List.drop_append, List.drop_eq_nil_of_le (by omega), List.nil_append,
    Nat.add_sub_cancel_left]

theorem bytes_esc (rest : List Char) : bytes (esc :: rest) = escByte :: bytes rest := by
  rw [Text.bytes_cons, Text.encode_ascii (by decide)]
  rfl

/-- The sequence measured is the text skipped. -/
theorem escapeSeqLen_bytes (front rest : List Char) :
    escapeSeqLen (bytes (front ++ esc :: rest)) (size front) + size (skipEscape rest) = 1 + size rest := by
  have hdrop : (bytes (front ++ esc :: rest)).drop (size front + 2) = (bytes rest).drop 1 := by
    rw [drop_bytes, bytes_esc]
    rfl
  have hget : (bytes (front ++ esc :: rest))[size front + 1]? = (bytes rest)[0]? := by
    rw [getElem?_bytes, bytes_esc]
    rfl
  rw [escapeSeqLen, hget, hdrop]
  cases rest with
  | nil => rfl
  | cons c rest =>
    rw [Text.bytes_cons]
    rcases Nat.lt_or_ge c.toNat 128 with hascii | hwide
    · have hsize : c.utf8Size = 1 := Text.utf8Size_ascii hascii
      have hbracket : UInt8.ofNat c.toNat = 0x5b ↔ c = '[' := Text.ascii_inj (d := '[') hascii (by decide)
      have hstring : UInt8.ofNat c.toNat ∈ ([0x5d, 0x50, 0x58, 0x5e, 0x5f] : List UInt8) ↔ c ∈ [']', 'P', 'X', '^', '_'] := by
        simp only [List.mem_cons, List.not_mem_nil, or_false]
        exact or_congr (Text.ascii_inj (d := ']') hascii (by decide)) (or_congr (Text.ascii_inj (d := 'P') hascii (by decide))
          (or_congr (Text.ascii_inj (d := 'X') hascii (by decide)) (or_congr (Text.ascii_inj (d := '^') hascii (by decide))
            (Text.ascii_inj (d := '_') hascii (by decide)))))
      have hcsi := csiLen_bytes rest
      have hlen := stringLen_bytes rest
      rw [Text.encode_ascii hascii, Text.size_cons, List.singleton_append]
      simp only [List.getElem?_cons_zero, List.drop_succ_cons, List.drop_zero, hbracket, hstring, Text.toNat_ascii hascii,
        skipEscape]
      split
      · omega
      · split
        · omega
        · omega
    · obtain ⟨b, more, hbytes⟩ : ∃ b more, String.utf8EncodeChar c = b :: more :=
        List.exists_cons_of_ne_nil String.utf8EncodeChar_ne_nil
      have hb : 128 ≤ b.toNat := Text.encode_wide hwide (by simp [hbytes])
      have hne (d : UInt8) (hd : d.toNat < 128) : b ≠ d := by
        rintro rfl
        omega
      have hbracket : c ≠ '[' := by
        rintro rfl
        revert hwide
        decide
      have hstring : c ∉ [']', 'P', 'X', '^', '_'] := by
        intro hmem
        simp only [List.mem_cons, List.not_mem_nil, or_false] at hmem
        rcases hmem with rfl | rfl | rfl | rfl | rfl <;> revert hwide <;> decide
      have hbyte : b ∉ ([0x5d, 0x50, 0x58, 0x5e, 0x5f] : List UInt8) := by
        intro hmem
        simp only [List.mem_cons, List.not_mem_nil, or_false] at hmem
        rcases hmem with rfl | rfl | rfl | rfl | rfl <;> revert hb <;> decide
      rw [hbytes, List.cons_append]
      simp only [List.getElem?_cons_zero, skipEscape]
      rw [if_neg (hne 0x5b (by decide)), if_neg hbyte, if_neg (by omega), if_neg hbracket, if_neg hstring, if_neg (by omega)]

/-! ## Stripping -/

theorem plain_nil : plain [] = [] := by rw [plain]

theorem plain_esc (rest : List Char) : plain (esc :: rest) = plain (skipEscape rest) := by rw [plain, if_pos rfl]

theorem plain_cons {c : Char} (h : c ≠ esc) (rest : List Char) : plain (c :: rest) = c :: plain rest := by
  rw [plain, if_neg h]

theorem plain_append {run : List Char} (h : esc ∉ run) (rest : List Char) : plain (run ++ rest) = run ++ plain rest := by
  induction run with
  | nil => rfl
  | cons c run ih =>
    have hc : c ≠ esc := fun hc => h (hc ▸ List.mem_cons_self ..)
    rw [List.cons_append, plain_cons hc, ih fun hmem => h (List.mem_cons_of_mem _ hmem), List.cons_append]

theorem escByte_not_mem {c : Char} (h : c ≠ esc) : escByte ∉ String.utf8EncodeChar c := by
  intro hmem
  rcases Nat.lt_or_ge c.toNat 128 with hascii | hwide
  · rw [Text.encode_ascii hascii, List.mem_singleton] at hmem
    exact h ((Text.ascii_inj (d := esc) hascii (by decide)).mp hmem.symm)
  · have hbyte := Text.encode_wide hwide hmem
    revert hbyte
    decide

theorem takeWhile_bytes (text : List Char) :
    ((bytes text).takeWhile (· ≠ escByte)).length = size (text.takeWhile (· ≠ esc)) := by
  induction text with
  | nil => rfl
  | cons c rest ih =>
    by_cases hc : c = esc
    · subst hc
      rw [bytes_esc, List.takeWhile_cons_of_neg (by simp), List.takeWhile_cons_of_neg (by simp)]
      rfl
    · have hall : ∀ b ∈ String.utf8EncodeChar c, decide (b ≠ escByte) = true := by
        intro b hb
        rw [decide_eq_true_eq]
        rintro rfl
        exact escByte_not_mem hc hb
      rw [Text.bytes_cons, List.takeWhile_append_of_pos hall, List.takeWhile_cons_of_pos (by simpa using hc),
        List.length_append, ih, String.length_utf8EncodeChar, Text.size_cons]

theorem head_bytes (c : Char) (rest : List Char) : ∃ b, (bytes (c :: rest))[0]? = some b ∧ b ∈ String.utf8EncodeChar c := by
  obtain ⟨b, more, hbytes⟩ : ∃ b more, String.utf8EncodeChar c = b :: more :=
    List.exists_cons_of_ne_nil String.utf8EncodeChar_ne_nil
  refine ⟨b, ?_, by simp [hbytes]⟩
  rw [Text.bytes_cons, hbytes]
  rfl

theorem exists_skipped (front rest : List Char) : ∃ front', front ++ esc :: rest = front' ++ skipEscape rest ∧
    size front + escapeSeqLen (bytes (front ++ esc :: rest)) (size front) = size front' := by
  obtain ⟨skipped, hskipped⟩ := skipEscape_suffix rest
  have hlen := escapeSeqLen_bytes front rest
  have hsize := congrArg size hskipped
  rw [Text.size_append] at hsize
  have hesc : esc.utf8Size = 1 := by decide
  refine ⟨front ++ esc :: skipped, by rw [List.append_assoc, List.cons_append, hskipped], ?_⟩
  rw [Text.size_append, Text.size_cons]
  omega

theorem stripFrom_eq {front rest out : List Char} {passes : ℕ} (h : rest.length < passes) :
    stripFrom (front ++ rest) passes (size front) out = some (out ++ plain rest) := by
  induction passes generalizing front rest out with
  | zero => omega
  | succ passes ih =>
    rw [stripFrom, show (bytes (front ++ rest))[size front]? = (bytes rest)[0]? from getElem?_bytes front rest 0]
    cases rest with
    | nil => simp [plain_nil]
    | cons c rest =>
      by_cases hc : c = esc
      · subst hc
        obtain ⟨front', hfront, hsize⟩ := exists_skipped front rest
        have hle := (skipEscape_suffix rest).length_le
        rw [bytes_esc, plain_esc]
        simp only [List.getElem?_cons_zero, if_true]
        rw [hsize, hfront]
        apply ih
        rw [List.length_cons] at h
        omega
      · obtain ⟨b, hget, hmem⟩ := head_bytes c rest
        have hb : b ≠ escByte := by
          rintro rfl
          exact escByte_not_mem hc hmem
        have hrun := List.takeWhile_append_dropWhile (p := fun d => decide (d ≠ esc)) (l := c :: rest)
        have hfree : esc ∉ (c :: rest).takeWhile fun d => decide (d ≠ esc) := by
          intro hesc
          have hne := List.all_eq_true.mp List.all_takeWhile _ hesc
          simp at hne
        have hnonempty : 0 < ((c :: rest).takeWhile fun d => decide (d ≠ esc)).length := by
          rw [List.takeWhile_cons_of_pos (by simpa using hc)]
          simp
        have hdrop := drop_bytes front (c :: rest) 0
        rw [Nat.add_zero, List.drop_zero] at hdrop
        simp only [hget, if_neg hb, hdrop, takeWhile_bytes]
        generalize (c :: rest).takeWhile (fun d => decide (d ≠ esc)) = run at hrun hfree hnonempty ⊢
        generalize (c :: rest).dropWhile (fun d => decide (d ≠ esc)) = later at hrun
        rw [← hrun] at h ⊢
        rw [← Text.size_append, ← List.append_assoc, Text.slice_append, Option.bind_some]
        rw [ih (by rw [List.length_append] at h; omega), plain_append hfree, List.append_assoc]

theorem strip_eq (s : List Char) : strip s = some (plain s) := by
  have hlen := Text.length_le_size s
  exact @stripFrom_eq [] s [] _ (by omega)

end Ral.Terminal
