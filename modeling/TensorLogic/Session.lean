import TensorLogic.Tensor.Fill

/-!
# Solver sessions

A session owns one working formula: variables numbered from 1 and clauses over
them. A literal is a variable's number, or that number negated. What is behind a
session stays open; all that callers rely on is in the class: variables come out
in order, clauses accumulate until the next `clear`, and `solve` gives a complete
assignment, or none, or fails.
-/

namespace TensorLogic

/-- A variable's number, negated where the variable is. -/
def Literal : Type := Int
  deriving DecidableEq, Repr, Inhabited

namespace Literal

instance : Cell Literal := ⟨4⟩

instance : NatCast Literal := inferInstanceAs (NatCast Int)

instance (n : Nat) : OfNat Literal n := inferInstanceAs (OfNat Int n)

instance : Neg Literal := inferInstanceAs (Neg Int)

instance : LT Literal := inferInstanceAs (LT Int)

instance (l l' : Literal) : Decidable (l < l') := Int.decLt l l'

/-- The number of the variable. -/
def var (l : Literal) : Nat :=
  Int.natAbs l

end Literal

abbrev Clause := List Literal

/-- A truth value for each variable of a session. -/
structure Assignment where
  /-- The value of variable `v` stands at position `v - 1`. -/
  values : Array Bool
  deriving DecidableEq, Repr

namespace Assignment

def «variables» (a : Assignment) : Nat :=
  a.values.size

def value (a : Assignment) (literal : Literal) : Except Fault Bool :=
  if literal = 0 then trap .zeroLiteral
  else
    match a.values[literal.var - 1]? with
    | some value => .ok (value == decide (literal > 0))
    | none => trap (.unassigned literal.var a.variables)

end Assignment

class Session (σ : Type) where
  /-- A fresh variable, as a positive literal. -/
  allocate : Run σ Literal
  /-- Adds a clause. Literals that the session never handed out are a trap. -/
  ensure : Clause → Run σ Unit
  /-- Forgets every variable and every clause. -/
  clear : σ → σ
  /-- An assignment of all variables that satisfies every clause, or none. -/
  solve : Run σ (Option Assignment)
  «variables» : σ → Nat
  clauses : σ → Nat

namespace Session

variable {σ : Type} [Session σ]

/-- One fresh variable per cell, in row-major order. -/
def tensor (shape : Shape) : Run σ (Tensor Literal) :=
  Tensor.generate shape fun _ => allocate

end Session

end TensorLogic
