import TensorLogic.Tensor.Basic

/-!
# Views that copy no cell

`reshape` describes every target axis on its own: it is a source axis, whose
extent it must keep, or a broadcast axis, along which cells repeat. Source axes
that no target axis names stay at coordinate 0. `unconcat` fixes the trailing
axis at each of its coordinates.

A source axis named twice contributes its stride twice. That is no diagonal: the
position can run past the buffer, and reading such a cell traps.
-/

namespace TensorLogic

/-- What a target axis of `reshape` is made of. -/
inductive Axis where
  | source (axis : Nat)
  /-- A fresh axis along which every cell repeats. -/
  | broadcast
  deriving DecidableEq, Repr

namespace Tensor

variable {α : Type}

/-- The stride of one target axis. -/
def axisStride (t : Tensor α) (target : Shape) (extent : Nat) : Axis → Except Fault Nat
  | .broadcast => .ok 0
  | .source axis =>
      match t.shape[axis]? with
      | none => refuse (.sourceAxis axis t.rank)
      | some n =>
          if n = extent then .ok (t.strides[axis]?.getD 0)
          else refuse (.shapeMismatch .reshape t.shape target)

/-- The strides of the target axes, checked from the outermost inwards. -/
def axisStrides (t : Tensor α) (target : Shape) : Shape → List Axis → Except Fault (List Nat)
  | extent :: extents, axis :: axes => do
      let stride ← t.axisStride target extent axis
      let strides ← axisStrides t target extents axes
      .ok (stride :: strides)
  | _, _ => .ok []

/-- The view of shape `target` whose axes are described by `axes`. -/
def reshape (t : Tensor α) (target : Shape) (axes : List Axis) : Except Fault (Tensor α) := do
  if target.length ≠ axes.length then
    refuse (.axisMapLength axes.length target)
  let size ← Size.checked target
  let strides ← t.axisStrides target target axes
  if (← t.isEmpty) && size != 0 then
    refuse (.emptyAsNonEmpty t.shape target)
  .ok { t with shape := target, strides }

/-- The bytes that the description of one view takes. -/
def viewWidth : Nat := 72

/-- One view per coordinate of the trailing axis. -/
def unconcat (t : Tensor α) : Except Fault (List (Tensor α)) :=
  match t.shape.getLast?, t.strides.getLast? with
  | some extent, some stride => do
      Size.reserve extent viewWidth
      (List.range extent).mapM fun k => do
        let offset ← Word.check (t.offset + k * stride)
        .ok { t with shape := t.shape.dropLast, strides := t.strides.dropLast, offset }
  | _, _ => refuse .scalarUnconcat

end Tensor

end TensorLogic
