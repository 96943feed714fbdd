import TensorLogic.Cnf.Search

/-!
# A session that keeps a record

The same working formula and the same search, with every call written down and
with an optional bound on the number of times that the session answers `solve`.
The record and what is left of the bound outlive `clear`.
-/

namespace TensorLogic

inductive SessionCall where
  | variable
  | ensure (clause : Clause)
  | clear
  | solve
  deriving DecidableEq, Repr

def SessionCall.text : SessionCall → String
  | .variable => "variable"
  | .ensure clause => "ensure [" ++ ", ".intercalate (clause.map Int.repr) ++ "]"
  | .clear => "clear"
  | .solve => "solve"

/-- A working formula with the record of all calls. -/
structure RecordedSession where
  formula : Cnf := {}
  calls : Array SessionCall := #[]
  /-- How many more times `solve` answers; without a number it always does. -/
  budget : Option Nat := none
  deriving DecidableEq, Repr

namespace RecordedSession

def record (call : SessionCall) : Run RecordedSession Unit :=
  modify fun s => { s with calls := s.calls.push call }

def allocate : Run RecordedSession Literal := do
  record .variable
  modify fun s => { s with formula := s.formula.allocate }
  return (← get).formula.variables

def ensure (clause : Clause) : Run RecordedSession Unit := do
  let count := (← get).formula.variables
  if clause.all (Cnf.owns count) then
    record (.ensure clause)
    modify fun s => { s with formula := s.formula.ensure clause }
  else trap .foreignLiteral

/-- Solves the working formula, unless the budget is used up. -/
def solve : Run RecordedSession (Option Assignment) := do
  record .solve
  let s ← get
  if s.budget = some 0 then
    refuse (.engine "budget exhausted")
  set { s with budget := s.budget.map (· - 1) }
  match s.formula.solve with
  | .ok answer => pure answer
  | .error cause => refuse cause

instance : Session RecordedSession where
  allocate := allocate
  ensure := ensure
  clear s := { s with formula := {}, calls := s.calls.push .clear }
  solve := solve
  «variables» s := s.formula.variables
  clauses s := s.formula.clauses.size

end RecordedSession

end TensorLogic
