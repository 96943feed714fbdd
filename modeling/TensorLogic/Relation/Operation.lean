import TensorLogic.Relation.Shape

/-!
# Properties of operations

An operation is given by its graph. That the graph is one of a total,
single-valued map is a property like the others (`isFunction`), so the
predicates below also have an answer for graphs of nothing in particular.
-/

namespace TensorLogic.Relation

variable {σ α : Type} [Cell α] (I : Interpreter σ α)

/-- The graph has exactly one value for every tuple of arguments. -/
def isFunction (graph : Tensor α) : Run σ α := do
  let rank := graph.rank
  let labels : String ← axisLabels .operation rank 1
  let unique ← I.reduce .one (without labels 0) .id [graph.named labels]
  let all ← I.fold .all (rank - 1) unique
  all.toScalar

/-- For each labelling of the axes of `op`, that all cells it selects hold. -/
def holdAlong (op : Tensor α) : List String → Run σ (List α)
  | [] => pure []
  | labels :: rest => do
      let all ← I.reduce .all "" .id [op.named labels]
      let holds : α ← all.toScalar
      let others ← holdAlong op rest
      pure (holds :: others)

/-- `m(x, x, y) = m(x, y, x) = m(y, x, x) = x`. -/
def isMajority (op : Tensor α) : Run σ α := do
  requireCube .operation op 4
  let parts ← holdAlong I op ["xxxy", "xxyx", "xyxx"]
  I.all parts

/-- `p(x, x, y) = p(y, x, x) = y`. -/
def isMaltsev (op : Tensor α) : Run σ α := do
  requireCube .operation op 4
  let parts ← holdAlong I op ["yxxy", "yyxx"]
  I.all parts

end TensorLogic.Relation
