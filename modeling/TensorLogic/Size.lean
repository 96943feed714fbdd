import TensorLogic.Fault

/-!
# Sizes that have to fit a machine word

Extents, strides and positions are 64-bit words, and leaving the word is never
silent. What happens instead depends on who computes: `checked` refuses the
shape by name, everything else traps.

The two products of a shape are taken in different directions and therefore fail
on different shapes. `checked` and `plain` multiply left to right and pass every
shape whose product is cut short by an early 0; `rowMajor` multiplies right to
left through every extent, the first one included, and so stumbles over large
extents that stand behind a 0.

Buffers are bound by their bytes. How many cells fit into one depends on what a
cell is, so every type of cells says how wide it is (`Cell`).
-/

namespace TensorLogic

/-- The types that tensors can be over, with the bytes that one cell takes. -/
class Cell (α : Type) where
  width : Nat

instance : Cell Unit := ⟨0⟩

instance : Cell Bool := ⟨1⟩

instance : Cell Nat := ⟨8⟩

instance : Cell Int := ⟨8⟩

instance : Cell String := ⟨24⟩

/-- One more than the largest word. -/
def Word.bound : Nat := Nat.pow 2 64

/-- `n`, if it is a word. -/
def Word.check (n : Nat) : Except Fault Nat :=
  if n < Word.bound then .ok n else trap .overflow

namespace Size

/-- The product of the extents, left to right from `acc`, if no intermediate
result leaves the word. -/
def product? (acc : Nat) : Shape → Option Nat
  | [] => some acc
  | n :: rest => if acc * n < Word.bound then product? (acc * n) rest else none

/-- The number of cells; a shape with too many is refused. -/
def checked (shape : Shape) : Except Fault Nat :=
  match product? 1 shape with
  | some n => .ok n
  | none => refuse (.tooLarge shape)

/-- The number of cells of a shape that is taken to be in order. -/
def plain (shape : Shape) : Except Fault Nat :=
  match product? 1 shape with
  | some n => .ok n
  | none => trap .overflow

/-- The row-major stride of every axis, and the product of all extents. -/
def rowMajor : Shape → Except Fault (List Nat × Nat)
  | [] => .ok ([], 1)
  | n :: rest => do
      let (strides, step) ← rowMajor rest
      let whole ← Word.check (step * n)
      .ok (step :: strides, whole)

/-- A buffer takes less than 2^63 bytes, whatever it is to hold. Asking for more fails
before anything is stored. -/
def reserve (entries width : Nat) : Except Fault Unit :=
  if entries * width < Nat.pow 2 63 then .ok () else trap (.capacity entries)

/-- The entries that a buffer has room for once it has grown to hold `entries` of them.
It doubles whenever it is full, so its room is a power of two. -/
def room : Nat → Nat
  | 0 => 0
  | before + 1 => Nat.pow 2 (Nat.log2 before + 1)

/-- What it takes to put one more entry into a buffer that grows as it is filled, so
that it holds `entries` of them. -/
def grow (entries width : Nat) : Except Fault Unit :=
  reserve (room entries) width

end Size

end TensorLogic
