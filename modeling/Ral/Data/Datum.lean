import Mathlib.Data.Fintype.Basic
import Mathlib.Data.List.FinRange
import Mathlib.Data.List.Nodup
import Mathlib.Data.List.Sort
import Mathlib.Data.Fin.Tuple.Basic
import Mathlib.Data.String.Basic
import Ral.Data.FOValue
import Ral.Data.SortedMap

/-! # Datum

A type's encoding as first-order data and its strict decoding, one combinator at
a time. A decode error is the text the source gives; the edit distance by which
it names the key most likely meant is a parameter.
-/

namespace Ral.Data

structure Datum (α : Type) where
  encode : α → FOValue
  decode : FOValue → Except String α

abbrev Distance : Type := String → String → ℕ

namespace Datum

def expected (what : String) (v : FOValue) : String := "expected " ++ what ++ ", got " ++ v.shape

def tag (label : String) (payload : Option FOValue) : FOValue :=
  .variant label (FOValue.present payload)

/-- A variant's label and payload, a `Unit` payload read as absent. -/
def untag : FOValue → Option (String × Option FOValue)
  | .variant label payload => some (label, FOValue.present payload)
  | _ => none

def orError {α : Type} (x : Option α) (why : String) : Except String α :=
  match x with
  | some a => .ok a
  | none => .error why

def mapError {α : Type} (f : String → String) : Except String α → Except String α
  | .ok a => .ok a
  | .error why => .error (f why)

/-- Values decoded in order up to the first error. -/
def collect {ε : Type} : (n : ℕ) → {α : Fin n → Type} → ((i : Fin n) → Except ε (α i)) →
    Except ε ((i : Fin n) → α i)
  | 0, _, _ => .ok fun i => i.elim0
  | n + 1, _, f =>
    match f 0 with
    | .error e => .error e
    | .ok a =>
      match collect n fun i => f i.succ with
      | .error e => .error e
      | .ok g => .ok (Fin.cons a g)

/-! ## Leaves -/

def unit : Datum Unit where
  encode _ := .unit
  decode
    | .unit => .ok ()
    | v => .error (expected "()" v)

def integer (low high : ℤ) (hlow : -2 ^ 63 ≤ low) (hhigh : high ≤ 2 ^ 63 - 1)
    (outside : FOValue → I64 → String) (other : FOValue → String) :
    Datum {n : ℤ // low ≤ n ∧ n ≤ high} where
  encode n := .int ⟨n.1, by have h := n.2; omega⟩
  decode v :=
    match v.asInt with
    | none => .error (other v)
    | some n => if h : low ≤ n.1 ∧ n.1 ≤ high then .ok ⟨n.1, h⟩ else .error (outside v n)

abbrev U8 : Type := {n : ℤ // 0 ≤ n ∧ n ≤ 255}

def u8 : Datum U8 :=
  integer 0 255 (by decide) (by decide) (fun _ n => toString n.1 ++ " is not a byte (0..=255)")
    (expected "an Int")

abbrev NonZeroU8 : Type := {n : ℤ // 1 ≤ n ∧ n ≤ 255}

def nonZeroU8 : Datum NonZeroU8 :=
  integer 1 255 (by decide) (by decide)
    (fun _ n => toString n.1 ++ " is not a failure status (1..=255)") (expected "an Int")

abbrev I32 : Type := {n : ℤ // -2 ^ 31 ≤ n ∧ n ≤ 2 ^ 31 - 1}

def i32 : Datum I32 :=
  integer (-2 ^ 31) (2 ^ 31 - 1) (by decide) (by decide) (fun v _ => expected "an exit status" v)
    (expected "an exit status")

abbrev U32 : Type := {n : ℤ // 0 ≤ n ∧ n ≤ 2 ^ 32 - 1}

def u32 : Datum U32 :=
  integer 0 (2 ^ 32 - 1) (by decide) (by decide)
    (fun v _ => expected "a non-negative Int below 2^32" v)
    (expected "a non-negative Int below 2^32")

def i64 : Datum I64 where
  encode n := .int n
  decode v := orError v.asInt (expected "an Int" v)

abbrev U64 : Type := {n : ℤ // 0 ≤ n ∧ n < 2 ^ 64}

/-- Saturating at the signed maximum. -/
def u64 : Datum U64 where
  encode n := .int ⟨min n.1 (2 ^ 63 - 1), by have h := n.2; omega⟩
  decode v :=
    match v.asInt with
    | none => .error (expected "a non-negative Int" v)
    | some n =>
      if h : 0 ≤ n.1 then .ok ⟨n.1, by have hn := n.2; omega⟩
      else .error (expected "a non-negative Int" v)

abbrev Usize (bits : ℕ) : Type := {n : ℤ // 0 ≤ n ∧ n < 2 ^ bits}

def usize (bits : ℕ) : Datum (Usize bits) where
  encode n := u64.encode ⟨min n.1 (2 ^ 64 - 1), by have h := n.2; omega⟩
  decode v := do
    let n ← u64.decode v
    if h : n.1 < 2 ^ bits then .ok ⟨n.1, n.2.1, h⟩
    else .error (expected "an Int this host can index" v)

def bool : Datum Bool where
  encode b := .bool b
  decode v := orError v.asBool (expected "a Bool" v)

def finite : Datum Finite where
  encode x := .float x
  decode
    | .float x => .ok x
    | v => .error (expected "a Float" v)

def string : Datum String where
  encode s := .string s
  decode v := orError v.asStr (expected "a Str" v)

/-- First-order data as itself. -/
def foValue : Datum FOValue where
  encode v := v
  decode v := .ok v

/-! ## Combinators -/

section Combinators
variable {α β : Type}

def option (d : Datum α) : Datum (Option α) where
  encode
    | some x => tag "some" (some (d.encode x))
    | none => tag "none" none
  decode v :=
    match untag v with
    | some ("none", none) => .ok none
    | some ("some", payload) => (d.decode (payload.getD .unit)).map some
    | _ => .error (expected "`none or `some" v)

def vec (d : Datum α) : Datum (List α) where
  encode xs := .list (xs.map d.encode)
  decode v := do
    let items ← orError v.asList (expected "a list" v)
    items.zipIdx.mapM fun x =>
      mapError (fun why => "element " ++ toString x.2 ++ ": " ++ why) (d.decode x.1)

/-- A two-element list. -/
def pair (a : Datum α) (b : Datum β) : Datum (α × β) where
  encode p := .list [a.encode p.1, b.encode p.2]
  decode v :=
    match v.asList with
    | some [x, y] => do
        let x ← a.decode x
        let y ← b.decode y
        .ok (x, y)
    | _ => .error (expected "a list of 2 elements" v)

def btreeMap (d : Datum α) : Datum (SortedMap String α) where
  encode m := .map (m.entries.map fun e => (e.1, d.encode e.2))
  decode v :=
    match v with
    | .map entries => do
        let entries ← entries.mapM fun e =>
          (mapError (fun why => "`" ++ e.1 ++ ": " ++ why) (d.decode e.2)).map fun x => (e.1, x)
        .ok (SortedMap.ofList entries)
    | v => .error (expected "a record" v)

end Combinators

/-! ## Records -/

def nearNames (distance : Distance) (name : String) (candidates : List String) (limit : ℕ) :
    List String :=
  let near := (candidates.map fun c => (distance name c, c)).filter fun p => p.1 ≤ 2
  let near := near.mergeSort fun a b => decide (a.1 < b.1 ∨ a.1 = b.1 ∧ a.2 ≤ b.2)
  (near.destutter (· ≠ ·)).take limit |>.map Prod.snd

def unknownKey (distance : Distance) (k : String) (keys : List String) : String :=
  match (nearNames distance k keys 1).head? with
  | some key => "unknown field `" ++ k ++ "`: did you mean `" ++ key ++ "`?"
  | none =>
    let known := keys.map fun k => "`" ++ k ++ "`"
    "unknown field `" ++ k ++ "`: expected " ++ ", ".intercalate known

def exactKeysFrom (distance : Distance) (keys : List String) :
    List String → List String → Except String Unit
  | _, [] => .ok ()
  | seen, k :: ks =>
    if k ∉ keys then .error (unknownKey distance k keys)
    else if k ∈ seen then .error ("field `" ++ k ++ "` given twice: which one did you mean?")
    else exactKeysFrom distance keys (k :: seen) ks

/-- Refuse a record whose keys are not exactly `keys`, each once. -/
def exactKeys (distance : Distance) (v : FOValue) (keys : List String) : Except String Unit :=
  match v with
  | .map entries => exactKeysFrom distance keys [] (entries.map Prod.fst)
  | v => .error (expected "a record" v)

def field {α : Type} (d : Datum α) (v : FOValue) (key : String) : Except String α := do
  let f ← orError (v.field key) ("no `" ++ key ++ " field in " ++ v.shape)
  mapError (fun why => "`" ++ key ++ ": " ++ why) (d.decode f)

def record (distance : Distance) (keys : List String) {α : Fin keys.length → Type}
    (d : (i : Fin keys.length) → Datum (α i)) : Datum ((i : Fin keys.length) → α i) where
  encode x := .map (((List.finRange keys.length).map fun i => (keys.get i, (d i).encode (x i))).mergeSort
    fun a b => decide (a.1 ≤ b.1))
  decode v := do
    exactKeys distance v keys
    collect keys.length fun i => field (d i) v (keys.get i)

/-! ## Tags -/

def indexOf (labels : List String) (l : String) : Option (Fin labels.length) :=
  (List.finRange labels.length).find? fun i => labels.get i == l

/-- An enum of bare tags. -/
def label (labels : List String) : Datum (Fin labels.length) where
  encode i := tag (labels.get i) none
  decode v :=
    let why := "expected one of " ++ ", ".intercalate (labels.map fun l => "`" ++ l) ++ ", got " ++ v.shape
    match untag v with
    | some (l, none) => orError (indexOf labels l) why
    | _ => .error why

def variant (labels : List String) (carries : Fin labels.length → Bool)
    {α : Fin labels.length → Type} (d : (i : Fin labels.length) → carries i = true → Datum (α i)) :
    Datum ((i : Fin labels.length) × (carries i = true → α i)) where
  encode x :=
    tag (labels.get x.1) (if h : carries x.1 = true then some ((d x.1 h).encode (x.2 h)) else none)
  decode v :=
    match untag v with
    | none => .error ("expected a tag, got " ++ v.shape)
    | some (l, payload) =>
      match indexOf labels l with
      | none => .error ("unknown tag `" ++ l ++ ": expected " ++
          ", ".intercalate (labels.map fun l => "`" ++ l))
      | some i =>
        if h : carries i = true then
          mapError (fun why => "`" ++ labels.get i ++ ": " ++ why)
            (((d i h).decode (payload.getD .unit)).map fun x => ⟨i, fun _ => x⟩)
        else
          match payload with
          | none => .ok ⟨i, fun hc => (h hc).elim⟩
          | some x => .error ("`" ++ labels.get i ++ " takes no payload, got " ++ x.shape)

end Datum

end Ral.Data
