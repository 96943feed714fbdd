import TensorLogic.Table.Codes
import TensorLogic.Tensor.Fill

/-!
# Tables of maps

Read as maps on `size` elements, a table lists for each map the images of all
elements in order, one map after the other. Its tensor holds the graphs of the
maps along the last axis: cell `[v, i, k]` is true exactly if code number
`k * size + i` is `v`. A code that is no element of the base leaves its column
empty, and a tensor with such a column, or with two values in one, has no table.
-/

namespace TensorLogic.Table

def decode (size : Nat) (text : String) : Except Fault (Tensor Bool) := do
  if size = 0 then
    refuse .emptyTableBase
  let codes ← parse text
  if codes.size % size ≠ 0 then
    refuse (.raggedTable codes.size size)
  Run.value <| Tensor.generate [size, size, codes.size / size] fun
    | [v, i, k] => pure (codes[k * size + i]? == some v)
    | _ => pure false

/-- Looks through `count` values from `v` on for the only true cell of a column.
The search ends at the second true cell. -/
def onlyValue (table : Tensor Bool) (column block : Nat) :
    (count v : Nat) → Option Nat → Except Fault (Option Nat)
  | 0, _, seen => .ok seen
  | count + 1, v, seen => do
      if ← table.get [v, column, block] then
        match seen with
        | some _ => .ok none
        | none => onlyValue table column block count (v + 1) (some v)
      else onlyValue table column block count (v + 1) seen

/-- The codes of a tensor, map by map. -/
def codes (table : Tensor Bool) (size inputs blocks : Nat) : Except Fault (Array Nat) :=
  Shape.countUp (fun k acc =>
    Shape.countUp (fun i (acc : Array Nat) => do
      match ← onlyValue table i k size 0 none with
      | some v => pure (acc.push v)
      | none => refuse (.ambiguousCell i k)) inputs 0 acc) blocks 0 #[]

/-- The table of a tensor with three axes, in which every column has exactly one
value: its codes in decimal with one space between two of them. -/
def encode (table : Tensor Bool) : Except Fault String :=
  match table.shape with
  | [size, inputs, blocks] => do
      Size.reserve (← Word.check (inputs * blocks)) (Cell.width String)
      let codes ← codes table size inputs blocks
      .ok (" ".intercalate (codes.toList.map Nat.repr))
  | shape => refuse (.tableRank shape)

end TensorLogic.Table
