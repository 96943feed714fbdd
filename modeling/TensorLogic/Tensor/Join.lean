import TensorLogic.Tensor.Fill

/-!
# Joins and contractions over labelled axes

Operands carry one character per axis, and axes that share a character are one
axis of the joint index space: over `xy` and `yz` a join ranges over all
`(x, y, z)`. A label repeated inside one operand selects its diagonal.

`join` lays the joint space out as the labels of the output, in that order,
followed by all other labels in the order of their first appearance, and
computes one cell per joint index. `reduce` then folds the other labels away.
Everything about labels is settled before the first cell is read.
-/

namespace TensorLogic

/-- A tensor with one label per axis. Whether the labels fit is checked on use. -/
structure Labelled (α : Type) where
  tensor : Tensor α
  labels : String

/-- Attaches labels to the axes of a tensor. -/
def Tensor.named {α : Type} (t : Tensor α) (labels : String) : Labelled α :=
  { tensor := t, labels }

/-- A label of the joint index space, with its extent and with the shape of the
operand that brought it in. -/
structure JointAxis where
  label : Char
  extent : Nat
  owner : Shape

/-- The result of a join: the axes of the output, then `folded` further ones. -/
structure Joined (α : Type) where
  tensor : Tensor α
  labels : String
  folded : Nat

namespace Join

variable {α β σ : Type}

/-- Enters the axes of one operand, each against what is already known. -/
def enterAxes (shape : Shape) :
    List (Char × Nat) → List JointAxis → Except Fault (List JointAxis)
  | [], known => .ok known
  | (label, extent) :: axes, known =>
      match known.find? (·.label == label) with
      | some axis =>
          if axis.extent = extent then enterAxes shape axes known
          else refuse (.shapeMismatch .reduce axis.owner shape)
      | none => enterAxes shape axes (known ++ [{ label, extent, owner := shape }])

/-- The labels of all operands in the order of their first appearance. -/
def collectAxes : List (Labelled α) → List JointAxis → Except Fault (List JointAxis)
  | [], known => .ok known
  | operand :: operands, known => do
      let shape := operand.tensor.shape
      let labels := operand.labels.toList
      if labels.length ≠ shape.length then
        refuse (.labelCount operand.labels shape.length)
      let known ← enterAxes shape (labels.zip shape) known
      collectAxes operands known

/-- The axes that the output names, each once and each known. -/
def outputAxes (output : String) (known : List JointAxis) :
    List Char → List JointAxis → Except Fault (List JointAxis)
  | [], chosen => .ok chosen
  | label :: labels, chosen =>
      if chosen.any (·.label == label) then refuse (.repeatedOutput label output)
      else
        match known.find? (·.label == label) with
        | some axis => outputAxes output known labels (chosen ++ [axis])
        | none => refuse (.unknownOutput label)

/-- The joint index space: the axes kept for the output, and those folded. -/
def jointAxes (output : String) (operands : List (Labelled α)) :
    Except Fault (List JointAxis × List JointAxis) := do
  if operands.isEmpty then
    refuse .noOperands
  let known ← collectAxes operands []
  let kept ← outputAxes output known output.toList []
  let folded := known.filter fun axis => !output.toList.contains axis.label
  .ok (kept, folded)

/-- For each axis of an operand, the joint axis that it takes its coordinate from. -/
def slots (joint : List JointAxis) (labels : String) : List Nat :=
  labels.toList.map fun label => joint.findIdx (·.label == label)

/-- An operand's cell at a joint index. -/
def operandCell (joint : Array Nat) (operand : Tensor α × List Nat) : Except Fault α :=
  operand.1.get (operand.2.map fun slot => joint.getD slot 0)

/-- The cells of all operands at a joint index, in operand order. -/
def operandCells (joint : Array Nat) (operands : List (Tensor α × List Nat)) :
    Except Fault (List α) :=
  operands.mapM (operandCell joint)

end Join

variable {α β σ : Type}

/-- The pointwise combination of the operands over their joint index space;
`combine` gets one cell per operand, in operand order. -/
@[specialize] def join [Cell β] (output : String) (operands : List (Labelled α))
    (combine : List α → Run σ β) : Run σ (Joined β) := do
  let axes : List JointAxis × List JointAxis ← Join.jointAxes output operands
  let (kept, folded) := axes
  let joint := kept ++ folded
  let sources := operands.map fun operand => (operand.tensor, Join.slots joint operand.labels)
  let shape : Shape := joint.map (·.extent)
  let _ : Nat ← Size.checked shape
  let tensor ← Tensor.generate shape fun index => do
    let coordinates := index.toArray
    let cells : List α ← Join.operandCells coordinates sources
    combine cells
  return { tensor, labels := String.ofList (joint.map (·.label)), folded := folded.length }

/-- A contraction: the join, with every label that the output lacks folded away
by `aggregate`. -/
@[specialize] def reduce [Cell β] (output : String) (operands : List (Labelled α))
    (combine : List α → Run σ β) (aggregate : List β → Run σ β) : Run σ (Tensor β) := do
  let joined ← join output operands combine
  joined.tensor.fold joined.folded aggregate

end TensorLogic
