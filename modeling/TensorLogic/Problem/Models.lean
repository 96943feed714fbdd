import TensorLogic.Problem.Basic

/-!
# Enumerating the solutions of a problem

The formula is compiled once. Each model of the session is read off at the
declared cells, and a clause over those cells then rules out exactly that
solution. Gates are never part of such a clause, since the declared cells
determine them. So every solution comes up once, and after at most `2 ^ cells` of
them the session has none left.

`Models` is the enumeration as a cursor, which the caller may drop at any point;
`enumerate`, `count` and `collect` run it to an end and clear the session
whatever that end is. A solver that breaks its own clauses could keep such a run
going for ever; it is stopped by a trap once all assignments are used up.
-/

namespace TensorLogic

/-- The solution that an assignment gives, cell by cell. -/
def decode (literals : Bindings Literal) (assignment : Assignment) : Except Fault Solution :=
  literals.mapM fun _ t =>
    Run.value <| t.map fun literal => do
      let value : Bool ← assignment.value literal
      pure value

/-- The clause that rules the assignment out at the given literals. -/
def blockingClause (assignment : Assignment) : List Literal → Except Fault Clause
  | [] => .ok []
  | literal :: rest => do
      let value ← assignment.value literal
      let others ← blockingClause assignment rest
      .ok ((if value then -literal else literal) :: others)

/-- The literals of all declared cells, by name and in row-major order. -/
def Bindings.literalList (literals : Bindings Literal) : Except Fault (List Literal) := do
  let cells ← literals.values.mapM Tensor.cells
  .ok (cells.flatMap Array.toList)

/-- An enumeration under way. -/
structure Models where
  literals : Bindings Literal
  /-- The number of solutions so far. -/
  found : Nat := 0
  exhausted : Bool := false

/-- One step of an enumeration. -/
inductive Step where
  | solution (solution : Solution)
  | failed (cause : Error)
  | finished

namespace Models

variable {σ : Type} [Session σ]

/-- Asks the session for an answer; an engine failure is an answer too. -/
def answer : Run σ (Except Error (Option Assignment)) :=
  tryCatch (Except.ok <$> Session.solve) fun
    | .refused cause => pure (.error cause)
    | .trapped cause => trap cause

/-- The next solution. Once there was none, or the engine failed, or no cell is
left to rule out, the enumeration is over and leaves the session alone. -/
def next (m : Models) : Run σ (Step × Models) := do
  if m.exhausted then
    return (.finished, m)
  match ← answer with
  | .error cause => return (.failed cause, { m with exhausted := true })
  | .ok none => return (.finished, { m with exhausted := true })
  | .ok (some assignment) =>
      let solution : Solution ← decode m.literals assignment
      let cells : List Literal ← m.literals.literalList
      let m := { m with found := m.found + 1 }
      match cells with
      | [] => return (.solution solution, { m with exhausted := true })
      | _ :: _ =>
          let clause : Clause ← blockingClause assignment cells
          Session.ensure clause
          return (.solution solution, m)

/-- Runs an enumeration to its end and folds over the solutions. The fuel is one
more than the number of assignments to the declared cells. -/
def foldAll {β : Type} (step : β → Solution → β) : (fuel : Nat) → Models → β → Run σ β
  | 0, _, _ => trap .endlessModels
  | fuel + 1, m, acc => do
      match ← m.next with
      | (.finished, _) => pure acc
      | (.failed cause, _) => refuse cause
      | (.solution solution, m) => foldAll step fuel m (step acc solution)

/-- Takes up to `limit` solutions. -/
def take : (limit : Nat) → Models → Array Solution → Run σ (Array Solution)
  | 0, _, acc => pure acc
  | limit + 1, m, acc => do
      match ← m.next with
      | (.finished, _) => pure acc
      | (.failed cause, _) => refuse cause
      | (.solution solution, m) => take limit m (acc.push solution)

/-- Folds over all solutions. -/
def foldSolutions {β : Type} (m : Models) (step : β → Solution → β) (acc : β) : Run σ β := do
  let cells : List Literal ← m.literals.literalList
  foldAll step (Nat.pow 2 cells.length + 1) m acc

end Models

namespace Problem

variable {σ : Type} [Session σ]

/-- One solution, or none if there is none. -/
def solveOne (p : Problem) : Run σ (Option Solution) := do
  let literals ← p.compile
  match ← Session.solve with
  | none => pure none
  | some assignment =>
      let solution : Solution ← decode literals assignment
      pure (some solution)

/-- The enumeration of all solutions, before its first step. -/
def models (p : Problem) : Run σ Models := do
  let literals ← p.compile
  pure { literals }

/-- Runs `x` and clears the session behind it, also when a request is refused. -/
def thenClear {α : Type} (x : Run σ α) : Run σ α :=
  tryCatch (do
    let a ← x
    modify Session.clear
    pure a) fun
    | .refused cause => do
        modify Session.clear
        refuse cause
    | .trapped cause => trap cause

/-- The solutions, or the first `limit` of them. Leaves the session clear. -/
def enumerate (p : Problem) (limit : Option Nat) : Run σ (Array Solution) :=
  thenClear do
    let m ← p.models
    match limit with
    | some limit => m.take limit #[]
    | none => m.foldSolutions Array.push #[]

/-- All solutions. -/
def solveAll (p : Problem) : Run σ (Array Solution) :=
  p.enumerate none

/-- The number of solutions. Leaves the session clear. -/
def count (p : Problem) : Run σ Nat :=
  thenClear do
    let m ← p.models
    m.foldSolutions (fun n _ => n + 1) 0

/-- The tensors of one variable in all solutions, along a new trailing axis. -/
def stackSolutions (solutions : List Solution) (name : String) (shape : Shape) :
    Except Fault (Tensor Bool) :=
  match solutions with
  | [] => .ok (.constant (shape ++ [0]) false)
  | _ :: _ => do
      let parts ← solutions.mapM fun solution => Bindings.get solution name
      Tensor.stack parts

/-- All solutions as one: slice `k` of every variable belongs to solution `k`. -/
def stack (p : Problem) (solutions : List Solution) : Except Fault Solution :=
  p.shapes.mapM (stackSolutions solutions)

/-- The solutions, or the first `limit` of them, stacked by variable. -/
def collect (p : Problem) (limit : Option Nat) : Run σ Solution := do
  let solutions ← p.enumerate limit
  let stacked : Solution ← p.stack solutions.toList
  pure stacked

end Problem

end TensorLogic
