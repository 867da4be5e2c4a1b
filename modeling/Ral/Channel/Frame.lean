import Mathlib.Algebra.Group.Nat.Defs
import Mathlib.Data.List.Basic
import Mathlib.Data.Nat.Notation

/-! # A byte stream as its reader meets it

The peer's bytes arrive in pieces of any size; a read may be cut by a signal before
any byte moves, and a broken connection fails it. At the end a read moves nothing.
-/

namespace Ral.Channel

/-- What a read meets next. -/
inductive Delivery
  | bytes (first : UInt8) (more : List UInt8)
  | interrupted
  | failed

abbrev Stream := List Delivery

inductive Reply
  | moved (bs : List UInt8)
  | eof
  | interrupted
  | failed

namespace Stream

/-- What is left of a piece. -/
def push : List UInt8 → Stream → Stream
  | [], s => s
  | b :: bs, s => .bytes b bs :: s

def read (room : ℕ) : Stream → Reply × Stream
  | [] => (.eof, [])
  | .interrupted :: s => (.interrupted, s)
  | .failed :: s => (.failed, s)
  | .bytes b bs :: s => (.moved ((b :: bs).take room), push ((b :: bs).drop room) s)

def delivered : Stream → List UInt8
  | [] => []
  | .interrupted :: s => delivered s
  | .failed :: _ => []
  | .bytes b bs :: s => b :: bs ++ delivered s

def fails : Stream → Bool
  | [] => false
  | .interrupted :: s => fails s
  | .failed :: _ => true
  | .bytes _ _ :: s => fails s

def weight : Stream → ℕ
  | [] => 0
  | .interrupted :: s => weight s + 1
  | .failed :: s => weight s + 1
  | .bytes _ bs :: s => bs.length + 1 + weight s

@[simp] theorem delivered_push (bs : List UInt8) (s : Stream) : delivered (push bs s) = bs ++ delivered s := by
  cases bs <;> rfl

@[simp] theorem fails_push (bs : List UInt8) (s : Stream) : fails (push bs s) = fails s := by
  cases bs <;> rfl

@[simp] theorem weight_push (bs : List UInt8) (s : Stream) : weight (push bs s) = bs.length + weight s := by
  cases bs <;> simp [push, weight]

theorem weight_read {room : ℕ} (pos : 0 < room) {s s' : Stream} {r : Reply} (h : read room s = (r, s'))
    (more : r ≠ .eof) : weight s' < weight s := by
  cases s with
  | nil =>
    simp only [read, Prod.mk.injEq] at h
    exact absurd h.1.symm more
  | cons d s =>
    cases d with
    | interrupted =>
      simp only [read, Prod.mk.injEq] at h
      simp [weight, ← h.2]
    | failed =>
      simp only [read, Prod.mk.injEq] at h
      simp [weight, ← h.2]
    | bytes b bs =>
      simp only [read, Prod.mk.injEq] at h
      rw [← h.2, weight_push, weight, List.length_drop, List.length_cons]
      omega

theorem read_moved {room : ℕ} {s s' : Stream} {bs : List UInt8} (h : read room s = (.moved bs, s')) :
    bs.length ≤ room ∧ delivered s = bs ++ delivered s' ∧ fails s' = fails s := by
  cases s with
  | nil => simp [read] at h
  | cons d s =>
    cases d with
    | interrupted => simp [read] at h
    | failed => simp [read] at h
    | bytes b more =>
      simp only [read, Prod.mk.injEq, Reply.moved.injEq] at h
      rw [← h.1, ← h.2, delivered_push, fails_push, ← List.append_assoc, List.take_append_drop]
      refine ⟨List.length_take_le _ _, rfl, rfl⟩

theorem read_interrupted {room : ℕ} {s s' : Stream} (h : read room s = (.interrupted, s')) :
    delivered s' = delivered s ∧ fails s' = fails s := by
  cases s with
  | nil => simp [read] at h
  | cons d s =>
    cases d with
    | interrupted =>
      simp only [read, Prod.mk.injEq, true_and] at h
      subst h
      exact ⟨rfl, rfl⟩
    | failed => simp [read] at h
    | bytes b more => simp [read] at h

theorem read_failed {room : ℕ} {s s' : Stream} (h : read room s = (.failed, s')) :
    delivered s = [] ∧ fails s = true := by
  cases s with
  | nil => simp [read] at h
  | cons d s =>
    cases d with
    | interrupted => simp [read] at h
    | failed => exact ⟨rfl, rfl⟩
    | bytes b more => simp [read] at h

theorem read_eof {room : ℕ} {s s' : Stream} (h : read room s = (.eof, s')) :
    delivered s = [] ∧ fails s = false := by
  cases s with
  | nil => exact ⟨rfl, rfl⟩
  | cons d s => cases d <;> simp [read] at h

end Stream

/-! ## Length-prefixed frames

A frame is its body's length in four little-endian bytes and the body. One fuse
bounds the length at both ends. The body's codec is a parameter.
-/

inductive ErrorKind
  | invalidData
  | unexpectedEof
  | other
  | connection
  deriving DecidableEq

structure IoError where
  kind : ErrorKind
  message : String
  deriving DecidableEq

def maxFrameLen : ℕ := 256 * 1024 * 1024

def oversize (len : ℕ) : IoError :=
  ⟨.invalidData, s!"frame: a frame of {len} bytes exceeds the maximum frame length of {maxFrameLen} bytes"⟩

def fuse (len : ℕ) : Except IoError ℕ := if len ≤ maxFrameLen then .ok len else .error (oversize len)

/-- Serialisation, and reading back what it wrote. -/
structure Codec (T : Type) where
  serialize : T → Except String (List UInt8)
  deserialize : List UInt8 → Except String T
  round_trip : ∀ v body, serialize v = .ok body → deserialize body = .ok v

/-- A body the fuse has passed, and its length prefix. -/
structure Encoded where
  len : ℕ
  body : List UInt8
  is_len : body.length = len
  fused : len ≤ maxFrameLen

def leBytes (n : ℕ) : List UInt8 :=
  [.ofNat n, .ofNat (n / 2 ^ 8), .ofNat (n / 2 ^ 16), .ofNat (n / 2 ^ 24)]

def ofLeBytes (bs : List UInt8) : ℕ := bs.foldr (fun b n => b.toNat + 2 ^ 8 * n) 0

theorem ofLeBytes_leBytes {n : ℕ} (h : n < 2 ^ 32) : ofLeBytes (leBytes n) = n := by
  simp only [ofLeBytes, leBytes, List.foldr_cons, List.foldr_nil, UInt8.toNat_ofNat']
  omega

@[simp] theorem length_leBytes (n : ℕ) : (leBytes n).length = 4 := rfl

variable {T : Type} (codec : Codec T)

/-- No I/O: a failure leaves the wire untouched. -/
def encode (v : T) : Except IoError Encoded :=
  match codec.serialize v with
  | .error e => .error ⟨.other, e⟩
  | .ok body =>
    if h : body.length ≤ maxFrameLen then .ok ⟨body.length, body, rfl, h⟩
    else .error (oversize body.length)

/-- What `put` writes. -/
def Encoded.wire (e : Encoded) : List UInt8 := leBytes e.len ++ e.body

def wires (es : List Encoded) : List UInt8 := es.flatMap Encoded.wire

theorem encode_eq_ok {codec : Codec T} {v : T} {e : Encoded} (h : encode codec v = .ok e) :
    codec.deserialize e.body = .ok v := by
  unfold encode at h
  split at h
  · cases h
  · next body hs =>
      split at h
      · cases h
        exact codec.round_trip v body hs
      · cases h

/-! ## Reading -/

def partialLength : IoError := ⟨.unexpectedEof, "frame: partial frame length"⟩

def shortBody : IoError := ⟨.unexpectedEof, "failed to fill whole buffer"⟩

def broken : IoError := ⟨.connection, "the connection failed"⟩

/-- The length prefix, from what is already in its buffer; `none` at a boundary. -/
def readLength (got : List UInt8) (s : Stream) : Except IoError (Option (List UInt8)) × Stream :=
  if _less : got.length < 4 then
    match _h : s.read (4 - got.length) with
    | (.interrupted, s') => readLength got s'
    | (.failed, s') => (.error broken, s')
    | (.eof, s') => if got = [] then (.ok none, s') else (.error partialLength, s')
    | (.moved bs, s') => readLength (got ++ bs) s'
  else (.ok (some got), s)
termination_by s.weight
decreasing_by
  · exact Stream.weight_read (Nat.sub_pos_of_lt _less) _h (by simp)
  · exact Stream.weight_read (Nat.sub_pos_of_lt _less) _h (by simp)

def readExact (want : ℕ) (got : List UInt8) (s : Stream) : Except IoError (List UInt8) × Stream :=
  if _more : 0 < want then
    match _h : s.read want with
    | (.interrupted, s') => readExact want got s'
    | (.failed, s') => (.error broken, s')
    | (.eof, s') => (.error shortBody, s')
    | (.moved bs, s') => readExact (want - bs.length) (got ++ bs) s'
  else (.ok got, s)
termination_by s.weight
decreasing_by
  · exact Stream.weight_read _more _h (by simp)
  · exact Stream.weight_read _more _h (by simp)

/-- `none` is a clean end at a frame boundary. -/
def readBody (s : Stream) : Except IoError (Option (List UInt8)) × Stream :=
  match readLength [] s with
  | (.error e, s') => (.error e, s')
  | (.ok none, s') => (.ok none, s')
  | (.ok (some bytes), s') =>
    match fuse (ofLeBytes bytes) with
    | .error e => (.error e, s')
    | .ok len =>
      match readExact len [] s' with
      | (.error e, s'') => (.error e, s'')
      | (.ok body, s'') => (.ok (some body), s'')

def decodeBody (body : List UInt8) : Except IoError T :=
  match codec.deserialize body with
  | .ok v => .ok v
  | .error e => .error ⟨.other, e⟩

def readFrame (s : Stream) : Except IoError (Option T) × Stream :=
  match readBody s with
  | (.error e, s') => (.error e, s')
  | (.ok none, s') => (.ok none, s')
  | (.ok (some body), s') => ((decodeBody codec body).map some, s')

/-! ## What the reads return -/

/-- As many bytes as asked for, or why not. -/
theorem readLength_spec (got : List UInt8) (s : Stream) (fits : got.length ≤ 4) :
    (4 ≤ got.length + s.delivered.length → ∃ s', readLength got s =
        (.ok (some (got ++ s.delivered.take (4 - got.length))), s') ∧
        s'.delivered = s.delivered.drop (4 - got.length) ∧ s'.fails = s.fails) ∧
      (got.length + s.delivered.length < 4 → ∃ s', readLength got s =
        (if s.fails then .error broken else if got ++ s.delivered = [] then .ok none
          else .error partialLength, s')) := by
  fun_induction readLength got s with
  | case1 got s less s' h ih =>
    have same := Stream.read_interrupted h
    rw [← same.1, ← same.2]
    exact ih fits
  | case2 got s less s' h =>
    have none := Stream.read_failed h
    rw [none.1, none.2]
    refine ⟨fun enough => absurd enough (by simp; omega), fun _ => ⟨s', rfl⟩⟩
  | case3 s s' less h =>
    have none := Stream.read_eof h
    rw [none.1, none.2]
    exact ⟨fun enough => absurd enough (by simp), fun _ => ⟨s', rfl⟩⟩
  | case4 got s less s' h some =>
    have none := Stream.read_eof h
    rw [none.1, none.2, List.append_nil, if_neg some]
    refine ⟨fun enough => absurd enough (by simp; omega), fun _ => ⟨s', rfl⟩⟩
  | case5 got s less bs s' h ih =>
    have moved := Stream.read_moved h
    have step := ih (by rw [List.length_append]; omega)
    rw [moved.2.1, ← moved.2.2]
    simp only [List.length_append] at step ⊢
    have split : 4 - got.length = bs.length + (4 - (got.length + bs.length)) := by omega
    rw [split, List.take_length_add_append, List.drop_length_add_append, ← List.append_assoc, ← List.append_assoc]
    exact ⟨fun enough => step.1 (by omega), fun short => step.2 (by omega)⟩
  | case6 got s full =>
    have same : 4 - got.length = 0 := by omega
    refine ⟨fun _ => ⟨s, by simp [same], by simp [same], rfl⟩, fun short => absurd short (by omega)⟩

theorem readExact_spec (want : ℕ) (got : List UInt8) (s : Stream) :
    (want ≤ s.delivered.length → ∃ s', readExact want got s = (.ok (got ++ s.delivered.take want), s') ∧
        s'.delivered = s.delivered.drop want ∧ s'.fails = s.fails) ∧
      (s.delivered.length < want → ∃ s', readExact want got s =
        (if s.fails then .error broken else .error shortBody, s')) := by
  fun_induction readExact want got s with
  | case1 want got s more s' h ih =>
    have same := Stream.read_interrupted h
    rw [← same.1, ← same.2]
    exact ih
  | case2 want got s more s' h =>
    have none := Stream.read_failed h
    rw [none.1, none.2]
    exact ⟨fun enough => absurd enough (by simp; omega), fun _ => ⟨s', rfl⟩⟩
  | case3 want got s more s' h =>
    have none := Stream.read_eof h
    rw [none.1, none.2]
    exact ⟨fun enough => absurd enough (by simp; omega), fun _ => ⟨s', rfl⟩⟩
  | case4 want got s more bs s' h ih =>
    have moved := Stream.read_moved h
    rw [moved.2.1, ← moved.2.2]
    simp only [List.length_append]
    have split : want = bs.length + (want - bs.length) := by omega
    rw [split, List.take_length_add_append, List.drop_length_add_append, ← split, ← List.append_assoc]
    exact ⟨fun enough => ih.1 (by omega), fun short => ih.2 (by omega)⟩
  | case5 want got s full =>
    have zero : want = 0 := by omega
    subst zero
    exact ⟨fun _ => ⟨s, by simp, by simp, rfl⟩, fun short => absurd short (by omega)⟩

end Ral.Channel
