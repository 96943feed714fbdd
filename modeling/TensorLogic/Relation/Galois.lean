import TensorLogic.Interpreter.Truth
import TensorLogic.Relation.Shape
import TensorLogic.Tensor.View

/-!
# Operations against relations

A binary operation preserves a relation if applying it coordinatewise to two
tuples of the relation gives a tuple of the relation. Over a stack of operations
and a stack of relations that makes a matrix, and the matrix a Galois connection:
its closed sets of rows are the clones.
-/

namespace TensorLogic.Relation

variable {σ α : Type} [Cell α] (I : Interpreter σ α)

/-- The labels of the axes in `isPreserved`, for a relation of the given arity:
those of the left tuple, of the right one, of the value, and for each coordinate
those of the graph of the operation. -/
def preservationLabels (arity : Nat) : String × String × String × List String :=
  let letter (i : Nat) : Char := letters.getD i 'a'
  let run (first : Nat) : String :=
    String.ofList ((List.range arity).map fun i => letter (first + i))
  let graph (i : Nat) : String :=
    String.ofList [letter (2 * arity + i), letter i, letter (arity + i)]
  (run 0, run arity, run (2 * arity), (List.range arity).map graph)

/-- The operation, applied coordinatewise to two tuples of `rel`, gives a tuple
of `rel`. -/
def isPreserved (rel op : Tensor α) : Run σ α := do
  requireCube .operation op 3
  let arity := rel.rank
  if arity = 0 ∨ arity > 8 then
    refuse (.preservationArity arity)
  requireExtent .relation rel arity (op.shape.headD 0)
  let (left, right, value, graphs) := preservationLabels arity
  let operands := [rel.named left, rel.named right] ++ graphs.map op.named
  let reached ← I.reduce .any value .and operands
  let contained ← I.map2 .leq reached rel
  let all ← I.fold .all arity contained
  all.toScalar

/-- The matrix that tells which operation preserves which relation. `ops` stacks
binary operations and `rels` stacks relations, along the last axis of each. -/
def galoisConnection (ops rels : Tensor Bool) : Except Fault (Tensor Bool) := do
  let ops ← ops.unconcat
  let rels ← rels.unconcat
  Size.reserve (← Word.check (ops.length * rels.length)) 1
  let rows ← ops.mapM fun op =>
    rels.mapM fun rel => Run.value (isPreserved truthValues rel op)
  Tensor.ofCells [ops.length, rels.length] rows.flatten.toArray

/-- The subset equals the set of rows related to every column that all of the
subset is related to. -/
def isClosedSubset (subset galois : Tensor α) : Run σ α := do
  if galois.rank ≠ 2 then
    refuse (.notMatrix galois.shape)
  requireExtent .subset subset 1 (galois.shape.headD 0)
  let columns ← I.reduce .all "y" .leq [subset.named "x", galois.named "xy"]
  let closure ← I.reduce .all "x" .leq [columns.named "y", galois.named "xy"]
  let same ← I.map2 .equ subset closure
  let all ← I.fold .all 1 same
  all.toScalar

end TensorLogic.Relation
