import TensorLogic.NameMap
import TensorLogic.Tensor.Text

/-!
# Tensors by name

Bindings give the variables of a formula their tensors. A solution is a binding
of boolean tensors: one model, or one assignment to be checked.
-/

namespace TensorLogic

/-- Tensors bound to variable names. -/
abbrev Bindings (α : Type) := NameMap (Tensor α)

/-- A boolean tensor for each variable. -/
abbrev Solution := Bindings Bool

namespace Bindings

variable {α : Type}

/-- The tensor bound to `name`; a name that is not bound is refused. -/
def get (bindings : Bindings α) (name : String) : Except Fault (Tensor α) :=
  match bindings.find? name with
  | some t => .ok t
  | none => refuse (.unknownVariable name)

/-- Whether two lists of entries have the same names and equal tensors. -/
def entriesEqual [BEq α] : List (String × Tensor α) → List (String × Tensor α) →
    Except Fault Bool
  | [], [] => .ok true
  | (name, a) :: rest, (name', b) :: rest' => do
      if name ≠ name' then .ok false
      else if ← Tensor.equal a b then entriesEqual rest rest'
      else .ok false
  | _, _ => .ok false

/-- Equality of bindings: the same names with equal tensors. -/
def equal [BEq α] (a b : Bindings α) : Except Fault Bool :=
  if a.size = b.size then entriesEqual a.entries b.entries else .ok false

/-- The printed form of a solution: each variable with its shape, above its tensor. -/
def text (solution : Solution) : Except Fault String :=
  solution.entries.foldlM (fun acc (name, t) => do
    let body ← t.text
    let acc := if acc.isEmpty then acc else acc ++ "\n"
    pure (acc ++ name ++ " " ++ Shape.text t.shape ++ "\n" ++ body)) ""

end Bindings

end TensorLogic
