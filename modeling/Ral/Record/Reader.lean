import Mathlib.Data.List.Induction
import Ral.Record.Log

/-! # The layout of a log

A file of whole lines and an unterminated tail, any prefix of which reads back
as the commits it wholly holds.
-/

namespace Ral.Record
open Ral.Lines

/-! ## Sums and seals -/

namespace Sum

theorem digit_isHex {d : ℕ} (h : d < 16) : isHex (Nat.digitChar d) = true := by
  revert h d
  decide

theorem hexValue_digit {d : ℕ} (h : d < 16) : hexValue (Nat.digitChar d) = d := by
  revert h d
  decide

theorem hexDigits_length (k n : ℕ) : (hexDigits k n).length = k := by
  induction k generalizing n with
  | zero => rfl
  | succ k ih => rw [hexDigits, List.length_append, ih, List.length_singleton]

theorem hexDigits_isHex (k n : ℕ) : (hexDigits k n).all isHex = true := by
  induction k generalizing n with
  | zero => rfl
  | succ k ih =>
    have hd := digit_isHex (Nat.mod_lt n (by decide : 16 > 0))
    simp [hexDigits, ih, hd]

theorem fromHex_hexDigits (k n : ℕ) : fromHex (hexDigits k n) = n % 16 ^ k := by
  induction k generalizing n with
  | zero => simp [hexDigits, fromHex, Nat.mod_one]
  | succ k ih =>
    have hd := hexValue_digit (Nat.mod_lt n (by decide : 16 > 0))
    have hfold : fromHex (hexDigits (k + 1) n) = fromHex (hexDigits k (n / 16)) * 16 + n % 16 := by
      simp [fromHex, hexDigits, hd]
    rw [hfold, ih, pow_succ', Nat.mod_mul]
    omega

theorem parse_toText (s : Sum) : parse s.toText = some s := by
  have hlen := hexDigits_length 16 s.1
  have hall := hexDigits_isHex 16 s.1
  have hval : fromHex (hexDigits 16 s.1) = s.1 := by
    rw [fromHex_hexDigits]
    exact Nat.mod_eq_of_lt (lt_of_lt_of_eq s.2 (by decide))
  rw [parse, toText, String.toList_ofList, if_neg (by simp [hlen, hall]),
    dif_pos (by rw [hval]; exact s.2)]
  simp only [hval]

end Sum

section Seals
variable {R : Type}

/-- What the log relies on in its JSON layer: reading undoes writing, and a line
is written without a raw newline. -/
structure Json.Faithful (json : Json R) : Prop where
  body : ∀ {body text}, json.toBody body = .ok text → json.readBody text = .ok body
  line : ∀ {body text mark line}, json.toBody body = .ok text → json.toLine mark text = .ok line →
    ∀ {S : Type} (parse : String → Option S) (s : S), parse mark = some s →
      json.readLine parse line = .ok (s, text)
  plain : ∀ {body text mark line}, json.toBody body = .ok text → json.toLine mark text = .ok line →
    newline ∉ line

variable {json : Json R} {blake3 : Bytes → Bytes}

theorem sealLine_eq_ok {body : Body R} {sum : Sum} {line : Bytes} :
    sealLine json blake3 body = .ok (sum, line) ↔
      ∃ text, json.toBody body = .ok text ∧ sumOf blake3 text = sum ∧
        json.toLine sum.toText text = .ok line := by
  rw [sealLine]
  cases hb : json.toBody body with
  | error why => simp [bind, Except.bind]
  | ok text =>
    cases hl : json.toLine (sumOf blake3 text).toText text with
    | error why =>
      simp only [bind, Except.bind, hl, reduceCtorEq, Except.ok.injEq, false_iff, not_exists]
      rintro _ ⟨rfl, rfl, h⟩
      rw [hl] at h
      cases h
    | ok line' =>
      simp only [bind, Except.bind, hl, Except.ok.injEq, Prod.mk.injEq]
      constructor
      · rintro ⟨rfl, rfl⟩
        exact ⟨text, rfl, rfl, hl⟩
      · rintro ⟨_, rfl, rfl, h⟩
        rw [hl] at h
        cases h
        exact ⟨rfl, rfl⟩

/-- A commit that sealed. -/
structure Entry (json : Json R) (blake3 : Bytes → Bytes) where
  body : Body R
  sum : Sum
  line : Bytes
  sealed : sealLine json blake3 body = .ok (sum, line)

namespace Entry

theorem unseals (hj : json.Faithful) (e : Entry json blake3) :
    ∃ text, json.toBody e.body = .ok text ∧ sumOf blake3 text = e.sum ∧
      unsealLine json blake3 e.line = .ok (e.sum, text) ∧
      recordsOf json text = .ok e.body.records := by
  obtain ⟨text, hbody, hsum, hline⟩ := sealLine_eq_ok.mp e.sealed
  refine ⟨text, hbody, hsum, ?_, ?_⟩
  · have hread := hj.line hbody hline Sum.parse e.sum (Sum.parse_toText _)
    simp [unsealLine, hread, hsum]
  · simp [recordsOf, hj.body hbody]

theorem plain (hj : json.Faithful) (e : Entry json blake3) : newline ∉ e.line := by
  obtain ⟨text, hbody, _, hline⟩ := sealLine_eq_ok.mp e.sealed
  exact hj.plain hbody hline

def commit (e : Entry json blake3) (number pos : ℕ) : Commit R :=
  Commit.new (number + 1) ⟨pos, pos + (e.line.length + 1)⟩ e.sum e.body.records

end Entry

/-! ## A file of whole lines -/

def lay : ℕ → ℕ → List (Entry json blake3) → List (Commit R)
  | _, _, [] => []
  | number, pos, e :: entries =>
    e.commit number pos :: lay (number + 1) (pos + (e.line.length + 1)) entries

def bytesOf (entries : List (Entry json blake3)) : Bytes := frame newline (entries.map (·.line))

def endOf (commits : List (Commit R)) : ℕ := (commits.getLast?.map (·.bytes.stop)).getD 0

/-- Numbered on from `number` and laid end to end from byte `pos`. -/
def Contiguous : ℕ → ℕ → List (Commit R) → Prop
  | _, _, [] => True
  | number, pos, c :: commits =>
    c.number = number + 1 ∧ c.bytes.start = pos ∧ pos < c.bytes.stop ∧
      Contiguous (number + 1) c.bytes.stop commits

@[simp] theorem bytesOf_nil : bytesOf ([] : List (Entry json blake3)) = [] := rfl

@[simp] theorem bytesOf_cons (e : Entry json blake3) (entries : List (Entry json blake3)) :
    bytesOf (e :: entries) = e.line ++ newline :: bytesOf entries := by
  simp [bytesOf]

@[simp] theorem bytesOf_append (xs ys : List (Entry json blake3)) :
    bytesOf (xs ++ ys) = bytesOf xs ++ bytesOf ys := by
  simp [bytesOf]

theorem length_lay (number pos : ℕ) (entries : List (Entry json blake3)) :
    (lay number pos entries).length = entries.length := by
  induction entries generalizing number pos with
  | nil => rfl
  | cons e entries ih => simp [lay, ih]

theorem lay_append (number pos : ℕ) (xs ys : List (Entry json blake3)) :
    lay number pos (xs ++ ys)
      = lay number pos xs ++ lay (number + xs.length) (pos + (bytesOf xs).length) ys := by
  induction xs generalizing number pos with
  | nil => rfl
  | cons e xs ih =>
    have hn : number + 1 + xs.length = number + (e :: xs).length := by
      rw [List.length_cons]
      omega
    have hp : pos + (e.line.length + 1) + (bytesOf xs).length = pos + (bytesOf (e :: xs)).length := by
      simp only [bytesOf_cons, List.length_append, List.length_cons]
      omega
    rw [List.cons_append, lay, lay, ih, hn, hp, List.cons_append]

theorem contiguous_lay (number pos : ℕ) (entries : List (Entry json blake3)) :
    Contiguous number pos (lay number pos entries) := by
  induction entries generalizing number pos with
  | nil => trivial
  | cons e entries ih =>
    have hlt : pos < pos + (e.line.length + 1) := by omega
    exact ⟨rfl, rfl, hlt, ih _ _⟩

theorem endOf_lay (entries : List (Entry json blake3)) :
    endOf (lay 0 0 entries) = (bytesOf entries).length := by
  induction entries using List.reverseRecOn with
  | nil => rfl
  | append_singleton entries e _ =>
    rw [lay_append, endOf, lay, lay, List.getLast?_append, bytesOf_append, List.length_append]
    simp [Entry.commit, Commit.bytes, Commit.new]

theorem stop_lay {number pos : ℕ} {entries : List (Entry json blake3)} {c : Commit R}
    (h : c ∈ lay number pos entries) : pos < c.bytes.stop := by
  induction entries generalizing number pos with
  | nil => cases h
  | cons e entries ih =>
    cases h with
    | head => exact Nat.lt_add_of_pos_right (Nat.succ_pos _)
    | tail _ h =>
      have hlt := ih h
      omega

theorem mem_lay {number pos : ℕ} {entries : List (Entry json blake3)} {c : Commit R}
    (h : c ∈ lay number pos entries) : ∃ xs e ys, entries = xs ++ e :: ys ∧
      c = e.commit (number + xs.length) (pos + (bytesOf xs).length) := by
  induction entries generalizing number pos with
  | nil => cases h
  | cons e entries ih =>
    cases h with
    | head => exact ⟨[], e, entries, rfl, rfl⟩
    | tail _ h =>
      obtain ⟨xs, e', ys, rfl, rfl⟩ := ih h
      refine ⟨e :: xs, e', ys, rfl, ?_⟩
      have hn : number + 1 + xs.length = number + (e :: xs).length := by
        rw [List.length_cons]
        omega
      have hp : pos + (e.line.length + 1) + (bytesOf xs).length
          = pos + (bytesOf (e :: xs)).length := by
        simp only [bytesOf_cons, List.length_append, List.length_cons]
        omega
      rw [hn, hp]

/-- The commits that end by a byte are those whose lines the bytes before it wholly hold. -/
theorem filter_lay (number pos n : ℕ) (entries : List (Entry json blake3)) :
    (lay number pos entries).filter (fun c => decide (c.bytes.stop ≤ pos + n))
      = lay number pos (whole (·.line) entries n) := by
  induction entries generalizing number pos n with
  | nil => rfl
  | cons e entries ih =>
    rw [lay, whole]
    by_cases hn : e.line.length + 1 ≤ n
    · have hstop : (e.commit number pos).bytes.stop ≤ pos + n := by
        show pos + (e.line.length + 1) ≤ pos + n
        omega
      have hrest : pos + n = pos + (e.line.length + 1) + (n - (e.line.length + 1)) := by omega
      rw [List.filter_cons_of_pos (by simpa using hstop), if_pos hn, lay, hrest, ih]
    · have hstop : ¬ (e.commit number pos).bytes.stop ≤ pos + n := by
        show ¬ pos + (e.line.length + 1) ≤ pos + n
        omega
      rw [List.filter_cons_of_neg (by simpa using hstop), if_neg hn, lay, List.filter_eq_nil_iff]
      intro c hc hle
      have hafter := stop_lay hc
      have hle : c.bytes.stop ≤ pos + n := by simpa using hle
      omega

/-! ## Reading it back -/

section Reading
variable (hj : json.Faithful)
include hj

theorem completeFrom_entries (pos : ℕ) (entries : List (Entry json blake3)) (rest : List Bytes) :
    completeFrom json blake3 pos ((entries.map (·.line)).map (· ++ [newline]) ++ rest)
      = completeFrom json blake3 (pos + (bytesOf entries).length) rest := by
  induction entries generalizing pos with
  | nil => rfl
  | cons e entries ih =>
    obtain ⟨text, _, _, hunseal, _⟩ := e.unseals hj
    have hlast : (e.line ++ [newline]).getLast? = some newline := by simp
    have hlen : pos + (e.line ++ [newline]).length + (bytesOf entries).length
        = pos + (bytesOf (e :: entries)).length := by
      simp only [bytesOf_cons, List.length_append, List.length_cons, List.length_nil]
      omega
    rw [List.map_cons, List.map_cons, List.cons_append, completeFrom, if_neg (by simp [hlast]),
      List.dropLast_concat, hunseal]
    show completeFrom json blake3 (pos + (e.line ++ [newline]).length) _ = _
    rw [ih, hlen]

theorem pieces_bytesOf (entries : List (Entry json blake3)) (tail : Bytes) :
    pieces newline (bytesOf entries ++ tail)
      = (entries.map (·.line)).map (· ++ [newline]) ++ pieces newline tail := by
  apply pieces_frame
  intro line hline
  obtain ⟨e, _, rfl⟩ := List.mem_map.mp hline
  exact e.plain hj

theorem completeLen_bytesOf (entries : List (Entry json blake3)) {tail : Bytes} (ht : newline ∉ tail) :
    completeLen json blake3 (bytesOf entries ++ tail) = (bytesOf entries).length := by
  rw [completeLen, completeWithin, List.take_length, pieces_bytesOf hj entries, completeFrom_entries hj,
    pieces_tail ht, Nat.zero_add]
  split
  · rfl
  · rw [completeFrom, if_pos]
    intro hlast
    exact ht (List.mem_of_getLast? hlast)

theorem commitsFrom_entries (number pos : ℕ) (entries : List (Entry json blake3)) :
    commitsFrom json blake3 number pos (entries.map (·.line)) = (lay number pos entries).map .ok := by
  induction entries generalizing number pos with
  | nil => rfl
  | cons e entries ih =>
    obtain ⟨text, _, _, hunseal, hrecords⟩ := e.unseals hj
    rw [List.map_cons, commitsFrom, hunseal]
    simp only [commitOf, hrecords, bind, Except.bind]
    rw [Nat.add_assoc pos, ih, lay, List.map_cons, Entry.commit]

theorem read_bytesOf (entries : List (Entry json blake3)) {tail : Bytes} (ht : newline ∉ tail) :
    read json blake3 (bytesOf entries ++ tail)
      = ((lay 0 0 entries).flatMap (·.records.toList)).map .ok := by
  have hsplit : split newline (bytesOf entries) = entries.map (·.line) := by
    apply split_frame
    intro line hline
    obtain ⟨e, _, rfl⟩ := List.mem_map.mp hline
    exact e.plain hj
  rw [read, completeLen_bytesOf hj entries ht, commits, List.drop_zero, Nat.sub_zero,
    List.take_left, hsplit, commitsFrom_entries hj]
  simp only [flatten, List.flatMap_map, List.map_flatMap]

/-- A prefix reads back as the commits it wholly holds, and its complete length is
the end of the last of them. -/
theorem read_take (entries : List (Entry json blake3)) {tail : Bytes} (ht : newline ∉ tail) (n : ℕ) :
    let kept := (lay 0 0 entries).filter fun c => decide (c.bytes.stop ≤ n)
    read json blake3 ((bytesOf entries ++ tail).take n)
        = (kept.flatMap (·.records.toList)).map .ok ∧
      completeLen json blake3 ((bytesOf entries ++ tail).take n) = endOf kept := by
  have hsome : ∃ rest, newline ∉ rest ∧
      (bytesOf entries ++ tail).take n = bytesOf (whole (·.line) entries n) ++ rest :=
    take_frame (fun e _ => e.plain hj) ht n
  obtain ⟨rest, hrest, htake⟩ := hsome
  have hkept := filter_lay 0 0 n entries
  rw [Nat.zero_add] at hkept
  intro kept
  have hlaid : kept = lay 0 0 (whole (·.line) entries n) := hkept
  rw [htake, hlaid, endOf_lay]
  exact ⟨read_bytesOf hj _ hrest, completeLen_bytesOf hj _ hrest⟩

theorem quarantineTail_bytesOf (entries : List (Entry json blake3)) {tail : Bytes} (ht : newline ∉ tail)
    (sidecar : Bytes) :
    quarantineTail json blake3 (bytesOf entries ++ tail) sidecar = (bytesOf entries, sidecar ++ tail) := by
  rw [quarantineTail, completeLen_bytesOf hj entries ht, List.drop_left, List.take_left]
  split
  · next h =>
      subst h
      simp
  · rfl

theorem appendTo_bytesOf (entries : List (Entry json blake3)) :
    Log.appendTo json blake3 (bytesOf entries)
      = .ok ⟨entries.length, (bytesOf entries).length, none⟩ := by
  have hcomplete := completeLen_bytesOf hj entries (List.not_mem_nil (a := newline))
  have hpieces := pieces_bytesOf hj entries []
  rw [List.append_nil] at hcomplete hpieces
  rw [completeLen] at hcomplete
  rw [Log.appendTo, extent, hcomplete, if_neg (lt_irrefl _), List.take_length, hpieces]
  simp [pieces, bind, Except.bind]

end Reading

end Seals

/-! ## Reading at a locus

What one reader answers, whatever it read before and however the file changed
between its reads.
-/

section Reading
variable {R : Type} {json : Json R} {blake3 : Bytes → Bytes}

def Holds (json : Json R) (blake3 : Bytes → Bytes) (file : Bytes) (locus : Locus) (value : R) : Prop :=
  let buf := (file.drop locus.bytes.start).take (locus.bytes.stop - locus.bytes.start)
  buf.getLast? = some newline ∧
    ∃ text records, unsealLine json blake3 buf.dropLast = .ok (locus.sum, text) ∧
      recordsOf json text = .ok records ∧ records.toList[locus.seq.index]? = some value

def readAll (json : Json R) (blake3 : Bytes → Bytes) :
    LocusReader R → List (Bytes × Locus) → List (Except LocusError R)
  | _, [] => []
  | reader, (file, locus) :: reads =>
    let (reader, answer) := reader.record json blake3 file locus
    answer :: readAll json blake3 reader reads

namespace Commit

theorem toList_new (number : ℕ) (bytes : Range) (sum : Sum) (records : NonEmpty R) :
    (Commit.new number bytes sum records).records.toList
      = records.toList.zipIdx.map fun x => ⟨⟨⟨number, x.2⟩, bytes, sum⟩, x.1⟩ := by
  simp [Commit.new, NonEmpty.toList, List.zipIdx_cons, List.zipIdx_succ, Function.comp_def]

end Commit

theorem unsealLine_sum {line : Bytes} {sum : Sum} {text : Bytes}
    (h : unsealLine json blake3 line = .ok (sum, text)) : sumOf blake3 text = sum := by
  unfold unsealLine at h
  split at h
  · cases h
  · dsimp only at h
    split at h
    · next hsum =>
        cases h
        exact hsum
    · cases h

theorem commitOf_eq_ok {sum : Sum} {body : Bytes} {number : ℕ} {bytes : Range} {c : Commit R} :
    commitOf json sum body number bytes = .ok c ↔
      ∃ records, recordsOf json body = .ok records ∧ c = Commit.new number bytes sum records := by
  unfold commitOf
  cases recordsOf json body <;> simp [bind, Except.bind, eq_comm]

namespace LocusReader

theorem lineAt_eq_ok {file : Bytes} {locus : Locus} {c : Commit R} :
    let buf := (file.drop locus.bytes.start).take (locus.bytes.stop - locus.bytes.start)
    lineAt json blake3 file locus = .ok c ↔ buf.getLast? = some newline ∧
      ∃ text records, unsealLine json blake3 buf.dropLast = .ok (locus.sum, text) ∧
        recordsOf json text = .ok records ∧
        c = Commit.new locus.seq.commit locus.bytes locus.sum records := by
  unfold lineAt
  dsimp only
  constructor
  · intro h
    split at h
    · next hlast =>
        refine ⟨hlast, ?_⟩
        split at h
        · next sum body hunseal =>
            split at h
            · next hsum =>
                subst hsum
                split at h
                · next commit hcommit =>
                    cases h
                    obtain ⟨records, hrecords, hc⟩ := commitOf_eq_ok.mp hcommit
                    exact ⟨body, records, hunseal, hrecords, hc⟩
                · cases h
            · cases h
        · cases h
    · cases h
  · rintro ⟨hlast, text, records, hunseal, hrecords, rfl⟩
    have hcommit : commitOf json locus.sum text locus.seq.commit locus.bytes
        = .ok (Commit.new locus.seq.commit locus.bytes locus.sum records) :=
      commitOf_eq_ok.mpr ⟨records, hrecords, rfl⟩
    simp only [if_pos hlast, hunseal, if_true]
    rw [hcommit]

/-- The line in hand is a sealed commit's. -/
def Honest (json : Json R) (blake3 : Bytes → Bytes) (reader : LocusReader R) : Prop :=
  ∀ c, reader.line = some c → ∃ number bytes text records, recordsOf json text = .ok records ∧
    c = Commit.new number bytes (sumOf blake3 text) records

def Fresh (json : Json R) (blake3 : Bytes → Bytes) (file : Bytes) (reader : LocusReader R) : Prop :=
  ∀ c, reader.line = some c → ∀ locus, c.holds locus = true →
    lineAt json blake3 file locus = .ok c

theorem honest_new : Honest json blake3 (new : LocusReader R) := by
  intro c hc
  cases hc

theorem fresh_new (file : Bytes) : Fresh json blake3 file (new : LocusReader R) := by
  intro c hc
  cases hc

variable (json blake3) in
/-- A read answers from the line in hand where that holds the locus, and else from the file. -/
theorem record_cases (reader : LocusReader R) (file : Bytes) (locus : Locus) :
    (∃ c, (reader.line = some c ∧ c.holds locus = true ∨ lineAt json blake3 file locus = .ok c) ∧
      reader.record json blake3 file locus
        = (⟨some c⟩, okOr (c.records.toList[locus.seq.index]?.map (·.value))
            (.fewer locus.seq.index locus.seq.commit))) ∨
    ∃ e, lineAt json blake3 file locus = .error e ∧
      (∀ c, reader.line = some c → c.holds locus = false) ∧
      reader.record json blake3 file locus = (⟨none⟩, .error e) := by
  by_cases hheld : ∃ c, reader.line = some c ∧ c.holds locus = true
  · obtain ⟨c, hline, hc⟩ := hheld
    refine .inl ⟨c, .inl ⟨hline, hc⟩, ?_⟩
    simp [record, hline, hc]
  · have hnot : ∀ c, reader.line = some c → c.holds locus = false := by
      intro c hline
      by_contra hc
      exact hheld ⟨c, hline, by simpa using hc⟩
    cases hat : lineAt json blake3 file locus with
    | error e =>
      refine .inr ⟨e, rfl, hnot, ?_⟩
      cases hline : reader.line with
      | none => simp [record, hline, hat]
      | some c => simp [record, hline, hnot c hline, hat]
    | ok c =>
      refine .inl ⟨c, .inr rfl, ?_⟩
      cases hline : reader.line with
      | none => simp [record, hline, hat]
      | some c => simp [record, hline, hnot c hline, hat]

theorem holds_new {number : ℕ} {bytes : Range} {sum : Sum} {records : NonEmpty R} {locus : Locus} :
    (Commit.new number bytes sum records).holds locus = true ↔
      number = locus.seq.commit ∧ bytes = locus.bytes ∧ sum = locus.sum := by
  simp only [Commit.holds, Commit.new, Bool.and_eq_true, beq_iff_eq, and_assoc]

theorem okOr_new {number : ℕ} {bytes : Range} {sum : Sum} {records : NonEmpty R} {i : ℕ}
    {why : LocusError} {v : R} :
    okOr ((Commit.new number bytes sum records).records.toList[i]?.map (·.value)) why = .ok v ↔
      records.toList[i]? = some v := by
  rw [Commit.toList_new, List.getElem?_map, List.getElem?_zipIdx]
  cases records.toList[i]? <;> simp [okOr]

theorem record_honest {reader : LocusReader R} (h : Honest json blake3 reader) (file : Bytes)
    (locus : Locus) :
    Honest json blake3 (reader.record json blake3 file locus).1 ∧
      ∀ v, (reader.record json blake3 file locus).2 = .ok v →
        ∃ text records, sumOf blake3 text = locus.sum ∧ recordsOf json text = .ok records ∧
          records.toList[locus.seq.index]? = some v := by
  rcases record_cases json blake3 reader file locus with ⟨c, hc, he⟩ | ⟨e, _, _, he⟩
  · have hsealed : ∃ text records, sumOf blake3 text = locus.sum ∧ recordsOf json text = .ok records ∧
        ∃ number bytes, c = Commit.new number bytes (sumOf blake3 text) records := by
      rcases hc with ⟨hline, hheld⟩ | hat
      · obtain ⟨number, bytes, text, records, hrecords, rfl⟩ := h c hline
        exact ⟨text, records, (holds_new.mp hheld).2.2, hrecords, number, bytes, rfl⟩
      · obtain ⟨_, text, records, hunseal, hrecords, rfl⟩ := lineAt_eq_ok.mp hat
        have hsum := unsealLine_sum hunseal
        exact ⟨text, records, hsum, hrecords, _, _, by rw [hsum]⟩
    obtain ⟨text, records, hsum, hrecords, number, bytes, rfl⟩ := hsealed
    rw [he]
    constructor
    · intro c hc
      cases hc
      exact ⟨number, bytes, text, records, hrecords, rfl⟩
    · intro v hv
      exact ⟨text, records, hsum, hrecords, okOr_new.mp hv⟩
  · rw [he]
    constructor
    · intro c hc
      cases hc
    · intro v hv
      cases hv

theorem record_fresh {file : Bytes} {reader : LocusReader R} (h : Fresh json blake3 file reader)
    (locus : Locus) :
    Fresh json blake3 file (reader.record json blake3 file locus).1 ∧
      ∀ v, (reader.record json blake3 file locus).2 = .ok v → Holds json blake3 file locus v := by
  rcases record_cases json blake3 reader file locus with ⟨c, hc, he⟩ | ⟨e, _, _, he⟩
  · have hat : lineAt json blake3 file locus = .ok c := by
      rcases hc with ⟨hline, hheld⟩ | hat
      · exact h c hline locus hheld
      · exact hat
    obtain ⟨hlast, text, records, hunseal, hrecords, rfl⟩ := lineAt_eq_ok.mp hat
    rw [he]
    constructor
    · intro c hc locus' hheld
      cases hc
      obtain ⟨hnumber, hbytes, hsum⟩ := holds_new.mp hheld
      apply lineAt_eq_ok.mpr
      rw [← hnumber, ← hbytes, ← hsum]
      exact ⟨hlast, text, records, hunseal, hrecords, rfl⟩
    · intro v hv
      exact ⟨hlast, text, records, hunseal, hrecords, okOr_new.mp hv⟩
  · rw [he]
    constructor
    · intro c hc
      cases hc
    · intro v hv
      cases hv

end LocusReader

end Reading

end Ral.Record
