import TensorLogic.Session

/-!
# Working formulas

What a session accumulates: a number of variables and the clauses over them, in
the order they came.
-/

namespace TensorLogic

/-- Whether the assignment covers the literal and makes it true. -/
def Assignment.satisfies (a : Assignment) (literal : Literal) : Bool :=
  literal ≠ 0 && a.values[literal.var - 1]? == some (decide (literal > 0))

structure Cnf where
  «variables» : Nat := 0
  clauses : Array Clause := #[]
  deriving DecidableEq, Repr

namespace Cnf

/-- Whether the literal names one of the first `count` variables. -/
def owns (count : Nat) (literal : Literal) : Bool :=
  literal ≠ 0 && literal.var ≤ count

def allocate (f : Cnf) : Cnf :=
  { f with «variables» := f.variables + 1 }

def ensure (f : Cnf) (clause : Clause) : Cnf :=
  { f with clauses := f.clauses.push clause }

/-- Whether the assignment covers every variable and makes every clause true. -/
def isModel (f : Cnf) (a : Assignment) : Bool :=
  a.variables == f.variables && f.clauses.all fun clause => clause.any a.satisfies

end Cnf

end TensorLogic
