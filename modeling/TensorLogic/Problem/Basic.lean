import TensorLogic.Formula
import TensorLogic.Interpreter.Clausal

/-!
# Problems over tensor variables

A problem declares tensor variables by name and shape and puts one formula over
them. The formula has two readings. `check` evaluates it on tensors of truth
values. `compile` gives every declared cell a literal of a session and asserts
the formula, so that the models of the session are the solutions of the problem
with the gates filled in.
-/

namespace TensorLogic

/-- Declared variables with a formula over them. -/
structure Problem where
  shapes : NameMap Shape
  formula : Formula

namespace Problem

/-- Enters declarations in the order given. -/
def enterShapes : List (String × Shape) → NameMap Shape → Except Fault (NameMap Shape)
  | [], known => .ok known
  | (name, shape) :: rest, known => do
      let _ ← Size.checked shape
      match known.find? name with
      | some _ => refuse (.declaredTwice name)
      | none => enterShapes rest (known.insert name shape)

/-- The problem of the given declarations. A repeated name is refused, and so is a
shape with too many cells. -/
def declare (shapes : List (String × Shape)) (formula : Formula) : Except Fault Problem := do
  let shapes ← enterShapes shapes .empty
  .ok { shapes, formula }

/-- The number of declared cells, which are what solutions range over. -/
def cellCount (p : Problem) : Except Fault Nat :=
  p.shapes.values.foldlM (fun total shape => do
    let size ← Size.plain shape
    Word.check (total + size)) 0

/-- Asks for declared names and declared shapes. -/
def checkShapes (p : Problem) : List (String × Tensor Bool) → Except Fault Unit
  | [] => .ok ()
  | (name, t) :: rest =>
      match p.shapes.find? name with
      | none => refuse (.unknownVariable name)
      | some shape =>
          if t.shape = shape then checkShapes p rest
          else refuse (.shapeMismatch .check shape t.shape)

/-- Whether the formula holds of the given tensors, which have to be exactly the
declared ones. -/
def check (p : Problem) (tensors : Solution) : Except Fault Bool := do
  p.checkShapes tensors.entries
  match p.shapes.names.find? fun name => (tensors.find? name).isNone with
  | some missing => refuse (.unboundVariable missing)
  | none => Run.value (p.formula.compute truthValues tensors)

variable {σ : Type} [Session σ]

/-- One literal per declared cell, by name and in row-major order. -/
def allocate (p : Problem) : Run σ (Bindings Literal) :=
  p.shapes.mapM fun _ shape => Session.tensor shape

/-- Starts the session afresh with the formula asserted true, and gives the
literals of the declared cells. Further clauses may follow before it is solved. -/
def compile (p : Problem) : Run σ (Bindings Literal) := do
  modify Session.clear
  let literals ← p.allocate
  let holds ← p.formula.compute Clausal.literals literals
  Session.ensure [holds]
  pure literals

end Problem

end TensorLogic
