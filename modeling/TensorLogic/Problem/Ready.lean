import TensorLogic.Problem.Basic

/-!
# Ready-made problems

Relations and operations with a named property, the subsets closed in a Galois
connection, and the one true cell of a grid.
-/

namespace TensorLogic

/-- The name of the relation that a problem ranges over. -/
def relationVariable : String := "rel"

/-- The name of the operation that a problem ranges over. -/
def operationVariable : String := "op"

/-- The name of the subset that a problem ranges over. -/
def subsetVariable : String := "sub"

/-- The name of the grid that a problem ranges over. -/
def gridVariable : String := "grid"

/-- Properties of one binary relation. -/
inductive RelationProperty where
  | reflexive
  | symmetric
  | transitive
  | equivalence
  | essential
  deriving DecidableEq, Repr

namespace RelationProperty

def name : RelationProperty → String
  | reflexive => "reflexive"
  | symmetric => "symmetric"
  | transitive => "transitive"
  | equivalence => "equivalence"
  | essential => "essential"

def every : List RelationProperty :=
  [reflexive, symmetric, transitive, equivalence, essential]

def ofName? (name : String) : Option RelationProperty :=
  every.find? (·.name == name)

def property : RelationProperty → Property
  | reflexive => .reflexive
  | symmetric => .symmetric
  | transitive => .transitive
  | equivalence => .equivalence
  | essential => .essential

/-- The relation has the property. -/
def formula (which : RelationProperty) : Formula :=
  .property which.property (.var relationVariable)

/-- All relations on `size` elements with the property. -/
def problem (which : RelationProperty) (size : Nat) : Except Fault Problem :=
  Problem.declare [(relationVariable, [size, size])] which.formula

end RelationProperty

/-- Properties of one ternary operation. -/
inductive OperationProperty where
  | majority
  | maltsev
  deriving DecidableEq, Repr

namespace OperationProperty

def name : OperationProperty → String
  | majority => "majority"
  | maltsev => "maltsev"

def every : List OperationProperty :=
  [majority, maltsev]

def ofName? (name : String) : Option OperationProperty :=
  every.find? (·.name == name)

def property : OperationProperty → Property
  | majority => .majority
  | maltsev => .maltsev

/-- The tensor is the graph of a map, and the map has the property. -/
def formula (which : OperationProperty) : Formula :=
  .dyad .and (.property .function (.var operationVariable))
    (.property which.property (.var operationVariable))

/-- All ternary operations on `size` elements with the property. -/
def problem (which : OperationProperty) (size : Nat) : Except Fault Problem :=
  Problem.declare [(operationVariable, [size, size, size, size])] which.formula

end OperationProperty

/-- All subsets of the rows of a Galois connection that are closed in it. -/
def closedSubsets (galois : Tensor Bool) : Except Fault Problem :=
  match galois.shape with
  | [rows, _] =>
      Problem.declare [(subsetVariable, [rows])]
        (.pairing .closedSubset (.var subsetVariable) (.lift galois))
  | shape => refuse (.notMatrix shape)

/-- All ways to make exactly one cell of a grid true. -/
def exactlyOne (shape : Shape) : Except Fault Problem :=
  Problem.declare [(gridVariable, shape)] (.fold .one none (.var gridVariable))

end TensorLogic
