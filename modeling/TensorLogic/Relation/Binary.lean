import TensorLogic.Relation.Shape

/-!
# Properties of binary relations

Reflexive, symmetric, transitive, and all three. Each is one contraction over
the axes of the relation, labelled so that repeated labels say which elements
coincide.
-/

namespace TensorLogic.Relation

variable {σ α : Type} [Cell α] (I : Interpreter σ α)

def isReflexive (rel : Tensor α) : Run σ α := do
  requireCube .relation rel 2
  let all ← I.reduce .all "" .id [rel.named "xx"]
  all.toScalar

/-- `R(x, y)` exactly if `R(y, x)`. -/
def isSymmetric (rel : Tensor α) : Run σ α := do
  requireCube .relation rel 2
  let all ← I.reduce .all "" .equ [rel.named "xy", rel.named "yx"]
  all.toScalar

/-- `R ∘ R ⊆ R`. -/
def isTransitive (rel : Tensor α) : Run σ α := do
  requireCube .relation rel 2
  let composed ← I.reduce .any "xz" .and [rel.named "xy", rel.named "yz"]
  let contained ← I.map2 .leq composed rel
  let all ← I.fold .all 2 contained
  all.toScalar

def isEquivalence (rel : Tensor α) : Run σ α := do
  let reflexive ← isReflexive I rel
  let symmetric ← isSymmetric I rel
  let transitive ← isTransitive I rel
  I.all [reflexive, symmetric, transitive]

end TensorLogic.Relation
