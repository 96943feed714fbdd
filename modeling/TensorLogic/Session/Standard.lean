import TensorLogic.Cnf.Search

/-!
# The session of the command line

A working formula with the search behind it. Literals are 32-bit numbers, so the
variables of a session are counted up to `2 ^ 31 - 1`.
-/

namespace TensorLogic

/-- A working formula that is solved by search. -/
structure StandardSession where
  formula : Cnf := {}
  deriving DecidableEq, Repr

namespace StandardSession

def literalLimit : Nat := Nat.pow 2 31 - 1

/-- One more variable; the count goes up even if it leaves the literals behind. -/
def allocate : Run StandardSession Literal := do
  modify fun s => { formula := s.formula.allocate }
  let count := (← get).formula.variables
  if count ≤ literalLimit then pure count else trap (.literalRange count)

def ensure (clause : Clause) : Run StandardSession Unit := do
  let count := (← get).formula.variables
  match clause.find? fun literal => !Cnf.owns count literal with
  | some literal => trap (.unallocated literal count)
  | none => modify fun s => { formula := s.formula.ensure clause }

/-- Solves the working formula, which stays as it is. -/
def solve : Run StandardSession (Option Assignment) := do
  match (← get).formula.solve with
  | .ok answer => pure answer
  | .error cause => refuse cause

instance : Session StandardSession where
  allocate := allocate
  ensure := ensure
  clear _ := {}
  solve := solve
  «variables» s := s.formula.variables
  clauses s := s.formula.clauses.size

/-- The session as its two counts. -/
def debugText (s : StandardSession) : String :=
  "VarisatSolver \x7b variables: " ++ s.formula.variables.repr ++ ", clauses: "
    ++ s.formula.clauses.size.repr ++ " \x7d"

end StandardSession

end TensorLogic
