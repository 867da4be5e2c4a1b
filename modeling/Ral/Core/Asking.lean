import Mathlib.Data.Nat.Notation

/-! # Programs that ask

A program threads a state, may fail keeping the state it failed in, may get stuck,
and may put a question to the outside and go on with the answer. What it does is a
tree; a relation between questions and answers picks the branches.
-/

namespace Ral

/-- What is left of a program: its outcome, nothing, or a question. -/
inductive Calls (Q A ε σ α : Type) : Type
  | done (r : Except ε α) (s : σ)
  | stuck
  | ask (q : Q) (next : A → Calls Q A ε σ α)

namespace Calls

variable {Q A ε σ τ α β : Type}

def bind (c : Calls Q A ε σ α) (f : α → σ → Calls Q A ε σ β) : Calls Q A ε σ β :=
  match c with
  | done (.ok a) s => f a s
  | done (.error e) s => done (.error e) s
  | stuck => stuck
  | ask q next => ask q fun a => (next a).bind f

/-- A question put on a branch the answers of `R` allow. -/
inductive Asked (R : Q → A → Prop) : Calls Q A ε σ α → Q → Prop
  | here (q : Q) (next : A → Calls Q A ε σ α) : Asked R (ask q next) q
  | later {q q' : Q} {next : A → Calls Q A ε σ α} {a : A} :
      R q a → Asked R (next a) q' → Asked R (ask q next) q'

end Calls

/-- A program from any state. -/
def Asking (Q A ε σ α : Type) : Type := σ → Calls Q A ε σ α

namespace Asking

variable {Q A ε σ τ α β : Type}

instance : Monad (Asking Q A ε σ) where
  pure a := fun s => .done (.ok a) s
  bind x f := fun s => (x s).bind f

/-- Nothing comes of it: a panic. -/
def stuck : Asking Q A ε σ α := fun _ => .stuck

def fail (e : ε) : Asking Q A ε σ α := fun s => .done (.error e) s

def ask (q : σ → Q) (answer : A → σ → Except ε α × σ) : Asking Q A ε σ α := fun s =>
  .ask (q s) fun a => .done (answer a s).1 (answer a s).2

end Asking

end Ral
