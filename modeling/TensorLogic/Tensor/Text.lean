import TensorLogic.Tensor.Basic

/-!
# Boolean tensors as text

Cells print as `0` and `1`. The last axis runs along a line and the one before it
down the lines; each matrix of a tensor of higher rank stands below its leading
index, with a blank line between two of them. The text of two tensors of one
shape is the same only if their cells are.
-/

namespace TensorLogic

def bit (value : Bool) : Char :=
  if value then '1' else '0'

namespace Tensor

/-- The cells below `lead` along one trailing axis, as one line. -/
def lineText (t : Tensor Bool) (lead : Index) (length : Nat) (acc : String) :
    Except Fault String := do
  let line ← Shape.countUp (fun i (acc : String) => do
    let cell ← t.get (lead ++ [i])
    pure (acc.push (bit cell))) length 0 acc
  pure (line.push '\n')

/-- The matrix below `lead`, one line per row. -/
def matrixText (t : Tensor Bool) (lead : Index) (rows columns : Nat) (acc : String) :
    Except Fault String :=
  Shape.countUp (fun row acc => t.lineText (lead ++ [row]) columns acc) rows 0 acc

def text (t : Tensor Bool) : Except Fault String :=
  match t.shape.reverse with
  | [] => do
      let cell ← t.get []
      pure (String.singleton (bit cell) ++ "\n")
  | [length] => t.lineText [] length ""
  | [columns, rows] => t.matrixText [] rows columns ""
  | columns :: rows :: lead =>
      Shape.foldIndices lead.reverse (fun acc index =>
        let acc := if acc.isEmpty then acc else acc ++ "\n"
        t.matrixText index rows columns (acc ++ Shape.text index ++ ":\n")) ""

/-- A tensor of integers with all its cells, on one line. -/
def debugText (t : Tensor Int) : Except Fault String := do
  let cells ← t.cells
  let list := ", ".intercalate (cells.toList.map Int.repr)
  pure ("NamedTensor \x7b shape: " ++ Shape.text t.shape ++ ", cells: [" ++ list ++ "] \x7d")

end Tensor

end TensorLogic
