import TensorLogic.Size

/-!
# Tensors as affine views

A tensor is a shape laid over a buffer: the cell at an index sits at `offset`
plus the sum of coordinate times stride. A dense tensor owns a buffer with one
cell per index; a constant one repeats a single cell by strides of 0, so its
shape is bound by nothing. Views (`TensorLogic.Tensor.View`) change the three
lists and leave the buffer alone, and nothing ever writes to a buffer.

Reading is where a view is held to account: `position` takes the coordinates one
axis at a time, and `get` then looks the position up.
-/

namespace TensorLogic

/-- An immutable multidimensional array, as a view into a buffer. -/
structure Tensor (α : Type) where
  shape : Shape
  strides : List Nat
  offset : Nat
  buffer : Array α

namespace Tensor

variable {α : Type}

def rank (t : Tensor α) : Nat :=
  t.shape.length

/-- The tensor that owns `buffer`, in row-major order. -/
def dense (shape : Shape) (buffer : Array α) : Except Fault (Tensor α) := do
  let _ ← Size.plain shape
  let (strides, _) ← Size.rowMajor shape
  .ok { shape, strides, offset := 0, buffer }

/-- Every cell is `value`, which is stored once. -/
def constant (shape : Shape) (value : α) : Tensor α :=
  { shape, strides := shape.map fun _ => 0, offset := 0, buffer := #[value] }

def scalar (value : α) : Tensor α :=
  constant [] value

def vector (cells : Array α) : Except Fault (Tensor α) :=
  dense [cells.size] cells

/-- The tensor of a shape over its cells in row-major order. -/
def ofCells (shape : Shape) (cells : Array α) : Except Fault (Tensor α) := do
  let needed ← Size.checked shape
  if needed ≠ cells.size then
    refuse (.elementCount shape needed cells.size)
  dense shape cells

def size (t : Tensor α) : Except Fault Nat :=
  Size.plain t.shape

def isEmpty (t : Tensor α) : Except Fault Bool := do
  return (← t.size) == 0

/-- The sum of coordinate times stride. -/
def dot : Index → List Nat → Nat
  | i :: index, s :: strides => i * s + dot index strides
  | _, _ => 0

/-- Adds up the position axis by axis. A coordinate outside its axis and a
position outside the word both stop it, whichever comes first. -/
def advancePosition (whole : Index) (shape : Shape) :
    Index → Shape → List Nat → Nat → Except Fault Nat
  | i :: index, n :: extents, s :: strides, pos =>
      if i < n then do
        let pos ← Word.check (pos + i * s)
        advancePosition whole shape index extents strides pos
      else trap (.outsideShape whole shape)
  | _, _, _, pos => .ok pos

/-- Where the cell at `index` sits in the buffer. -/
def position (t : Tensor α) (index : Index) : Except Fault Nat :=
  if index.length = t.rank then
    advancePosition index t.shape index t.shape t.strides t.offset
  else trap (.wrongRank index t.shape)

def cellAt (t : Tensor α) (pos : Nat) : Except Fault α :=
  match t.buffer[pos]? with
  | some cell => .ok cell
  | none => trap .outOfBounds

def get (t : Tensor α) (index : Index) : Except Fault α := do
  t.cellAt (← t.position index)

def cells (t : Tensor α) : Except Fault (Array α) :=
  t.shape.collect t.get

/-- The first `limit` cells in row-major order, or all if there are fewer. -/
def cellsUpTo (t : Tensor α) (limit : Nat) : Except Fault (List α) :=
  ((Walk.ofShape t.shape).take limit).mapM t.get

/-- The value of a rank-0 tensor. -/
def toScalar (t : Tensor α) : Except Fault α :=
  if t.rank = 0 then t.get [] else refuse (.notScalar t.shape)

/-- Whether two cells agree at each of the next `limit` indices. -/
def agree [BEq α] (a b : Tensor α) : (limit : Nat) → Walk → Except Fault Bool
  | 0, _ => .ok true
  | limit + 1, w =>
      match w.advance with
      | (some index, w) => do
          let x ← a.get index
          let y ← b.get index
          if x == y then agree a b limit w else .ok false
      | (none, _) => .ok true

/-- Equality of tensors: one shape, and the same cells however they are stored.
Cells are compared in row-major order up to the first difference. -/
def equal [BEq α] (a b : Tensor α) : Except Fault Bool :=
  if a.shape = b.shape then agree a b a.shape.cells (Walk.ofShape a.shape) else .ok false

end Tensor

end TensorLogic
