import TensorLogic.Tensor.Basic

/-!
# Operations that compute new cells

Each of these fills a fresh dense buffer, and each calls its cell function once
per cell of the result, in row-major order, interleaved with the reads that feed
it: `map` reads a cell and calls, reads the next and calls again. The cell
functions run in `Run σ` because that order is visible as soon as they allocate
variables or write clauses.

`generate` and `fold` know how many cells there will be and ask for the whole
buffer before the first call. `map`, `map2` and `toVec` do not count beforehand:
their buffer grows, and it may find no room after any of the calls (`gather`).
A fold holds two lists besides, the offsets of a block and its cells.
-/

namespace TensorLogic

/-- The results of `f` at every index, in row-major order, in a buffer that grows as
they come. -/
@[specialize] def Shape.gather {α σ : Type} [Cell α] (shape : Shape) (f : Index → Run σ α) :
    Run σ (Array α) :=
  shape.foldIndices (fun (acc : Array α) index => do
    let cell ← f index
    Size.grow (acc.size + 1) (Cell.width α)
    pure (acc.push cell)) #[]

namespace Tensor

variable {α β γ σ : Type}

/-- The tensor whose cell at each index is what `cell` gives there. -/
@[specialize] def generate [Cell α] (shape : Shape) (cell : Index → Run σ α) :
    Run σ (Tensor α) := do
  match Size.product? 1 shape with
  | none => trap (.oversized shape)
  | some size =>
      Size.reserve size (Cell.width α)
      let buffer ← shape.collect cell
      dense shape buffer

@[specialize] def map [Cell β] (t : Tensor α) (f : α → Run σ β) : Run σ (Tensor β) := do
  let buffer ← t.shape.gather fun index => do
    let cell : α ← t.get index
    f cell
  dense t.shape buffer

/-- The cells of two tensors of one shape, combined pairwise. -/
@[specialize] def map2 [Cell γ] (a : Tensor α) (b : Tensor β) (f : α → β → Run σ γ) :
    Run σ (Tensor γ) := do
  if a.shape ≠ b.shape then
    refuse (.shapeMismatch .map2 a.shape b.shape)
  let buffer ← a.shape.gather fun index => do
    let x : α ← a.get index
    let y : β ← b.get index
    f x y
  dense a.shape buffer

/-- The cells in row-major order, copied into a buffer of their own. -/
def toVec [Cell α] (t : Tensor α) : Except Fault (Array α) :=
  Run.value <| t.shape.gather fun index => (t.get index : Except Fault α)

/-- The offsets, from the first cell of a block, of all cells of a block. -/
def blockOffsets (shape : Shape) (strides : List Nat) : Except Fault (List Nat) := do
  let offsets ← Run.value <| shape.gather fun index => Word.check (dot index strides)
  .ok offsets.toList

/-- The cells of the block that starts at `base`. -/
def block (t : Tensor α) (offsets : List Nat) (base : Nat) : Except Fault (List α) :=
  offsets.mapM fun offset => do t.cellAt (← Word.check (base + offset))

/-- Collapses the trailing `axes` axes: `f` gets the cells of each block in
row-major order, none at all if a collapsed extent is 0. -/
@[specialize] def fold [Cell α] [Cell β] (t : Tensor α) (axes : Nat) (f : List α → Run σ β) :
    Run σ (Tensor β) := do
  if axes > t.rank then
    refuse (.foldBeyondRank axes t.shape)
  let split := t.rank - axes
  let outer : Shape := t.shape.take split
  let outerStrides := t.strides.take split
  let offsets : List Nat ← blockOffsets (t.shape.drop split) (t.strides.drop split)
  Size.reserve offsets.length (Cell.width α)
  let size : Nat ← Size.plain outer
  Size.reserve size (Cell.width β)
  let buffer ← outer.collect fun index => do
    let base : Nat ← Word.check (t.offset + dot index outerStrides)
    let cells : List α ← t.block offsets base
    f cells
  dense outer buffer

/-- The inverse of `unconcat`: a new trailing axis that runs over the parts. -/
def stack [Cell α] (parts : List (Tensor α)) : Except Fault (Tensor α) :=
  match parts with
  | [] => refuse .emptyStack
  | first :: _ => do
      if let some other := parts.find? fun part => part.shape ≠ first.shape then
        refuse (.shapeMismatch .stack first.shape other.shape)
      let shape := first.shape ++ [parts.length]
      let _ ← Size.checked shape
      let parts := parts.toArray
      Run.value <| generate shape fun index => do
        match index.getLast?.bind (parts[·]?) with
        | some part => part.get index.dropLast
        | none => trap .outOfBounds

end Tensor

end TensorLogic
