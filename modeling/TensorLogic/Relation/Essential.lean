import TensorLogic.Relation.Shape

/-!
# Essential relations and essential operations

A relation is essential if some tuple outside it can be moved inside by changing
any one of its coordinates alone. An operation is essential if it depends on
every argument. Both are stated over one contraction per axis and for any arity
that the letters reach.
-/

namespace TensorLogic.Relation

variable {σ α : Type} [Cell α] (I : Interpreter σ α)

/-- The shadows of a relation along the given axes: what remains of it once the
axis is forgotten. -/
def shadows (rel : Tensor α) (labels : String) : List Nat → Run σ (List (Labelled α))
  | [] => pure []
  | axis :: rest => do
      let kept := without labels axis
      let shadow ← I.reduce .any kept .id [rel.named labels]
      let others ← shadows rel labels rest
      pure (shadow.named kept :: others)

/-- Some tuple is outside the relation while it is in every shadow. -/
def isEssential (rel : Tensor α) : Run σ α := do
  let labels : String ← axisLabels .relation rel.rank 2
  let parts ← shadows I rel labels (List.range labels.length)
  let outside ← I.map .not rel
  let found ← I.reduce .any "" .and (parts ++ [outside.named labels])
  found.toScalar

/-- For each of the given argument axes, that the graph is constant along it. -/
def ignoredArguments (op : Tensor α) (labels : String) : List Nat → Run σ (List α)
  | [] => pure []
  | axis :: rest => do
      let constant ← I.reduce .eqs (without labels axis) .id [op.named labels]
      let all ← I.fold .all (labels.length - 1) constant
      let ignored : α ← all.toScalar
      let others ← ignoredArguments op labels rest
      pure (ignored :: others)

def isEssentialOperation (op : Tensor α) : Run σ α := do
  let labels : String ← axisLabels .operation op.rank 2
  let ignored ← ignoredArguments I op labels ((List.range labels.length).drop 1)
  let ignoresOne ← I.any ignored
  I.neg ignoresOne

end TensorLogic.Relation
