import TensorLogic.Problem.Ready

/-!
# What a monoid of maps leaves invariant

A query asks for the relations that every map of a monoid keeps, or for the
operations that make maps of the monoid out of its maps, perhaps with a further
property. Each is one problem over a single relation or operation.
-/

namespace TensorLogic

/-- Families of relations and operations that belong to a monoid. -/
inductive MonoidQuery where
  | unaryRelations
  | binaryRelations
  | ternaryRelations
  | essentialBinaryRelations
  | essentialTernaryRelations
  | quasiorders
  | binaryOperations
  | ternaryOperations
  | essentialBinaryOperations
  | essentialTernaryOperations
  | majorityOperations
  | maltsevOperations
  deriving DecidableEq, Repr

namespace MonoidQuery

def every : List MonoidQuery :=
  [unaryRelations, binaryRelations, ternaryRelations, essentialBinaryRelations,
    essentialTernaryRelations, quasiorders, binaryOperations, ternaryOperations,
    essentialBinaryOperations, essentialTernaryOperations, majorityOperations,
    maltsevOperations]

def name : MonoidQuery → String
  | unaryRelations => "UnaryRelations"
  | binaryRelations => "BinaryRelations"
  | ternaryRelations => "TernaryRelations"
  | essentialBinaryRelations => "EssentialBinaryRelations"
  | essentialTernaryRelations => "EssentialTernaryRelations"
  | quasiorders => "Quasiorders"
  | binaryOperations => "BinaryOperations"
  | ternaryOperations => "TernaryOperations"
  | essentialBinaryOperations => "EssentialBinaryOperations"
  | essentialTernaryOperations => "EssentialTernaryOperations"
  | majorityOperations => "MajorityOperations"
  | maltsevOperations => "MaltsevOperations"

/-- The name of the variable that the query ranges over. -/
def variableName : MonoidQuery → String
  | unaryRelations | binaryRelations | ternaryRelations | essentialBinaryRelations
  | essentialTernaryRelations | quasiorders => relationVariable
  | binaryOperations | ternaryOperations | essentialBinaryOperations
  | essentialTernaryOperations | majorityOperations | maltsevOperations => operationVariable

/-- The number of axes of that variable. -/
def rank : MonoidQuery → Nat
  | unaryRelations => 1
  | binaryRelations | essentialBinaryRelations | quasiorders => 2
  | ternaryRelations | essentialTernaryRelations | binaryOperations
  | essentialBinaryOperations => 3
  | ternaryOperations | essentialTernaryOperations | majorityOperations
  | maltsevOperations => 4

def describe : MonoidQuery → String
  | unaryRelations => "unary relations"
  | binaryRelations => "binary relations"
  | ternaryRelations => "ternary relations"
  | essentialBinaryRelations => "essential binary rels"
  | essentialTernaryRelations => "essential ternary rels"
  | quasiorders => "quasiorder relations"
  | binaryOperations => "binary ops"
  | ternaryOperations => "ternary ops"
  | essentialBinaryOperations => "essential binary ops"
  | essentialTernaryOperations => "essential ternary ops"
  | majorityOperations => "majority ops"
  | maltsevOperations => "maltsev ops"

def ofName? (name : String) : Option MonoidQuery :=
  every.find? (·.name == name)

/-- The name that the monoid goes by inside the formula of a query. -/
def monoidName : String := "monoid"

/-- The conditions of a query, in the order in which they are imposed. -/
def conditions (query : MonoidQuery) : List Formula :=
  let x : Formula := .var query.variableName
  let kept : Formula := .pairing .compatible x (.var monoidName)
  let map : Formula := .property .function x
  let inside : Formula := .pairing .stabilizer x (.var monoidName)
  match query with
  | unaryRelations | binaryRelations | ternaryRelations => [kept]
  | essentialBinaryRelations | essentialTernaryRelations => [kept, .property .essential x]
  | quasiorders => [kept, .property .reflexive x, .property .transitive x]
  | binaryOperations | ternaryOperations => [map, inside]
  | essentialBinaryOperations | essentialTernaryOperations =>
      [map, inside, .property .essentialOperation x]
  | majorityOperations => [map, inside, .property .majority x]
  | maltsevOperations => [map, inside, .property .maltsev x]

/-- All conditions of the query. The monoid is embedded once, before the first. -/
def formula (query : MonoidQuery) (monoid : Tensor Bool) : Formula :=
  .given monoidName (.lift monoid) (.aggregate .all query.conditions)

end MonoidQuery

/-- A query over one monoid. -/
structure Invariants where
  monoid : Tensor Bool
  query : MonoidQuery

namespace Invariants

/-- Pairs a query with a monoid; the tensor has to have the shape of one. -/
def ofMonoid (monoid : Tensor Bool) (query : MonoidQuery) : Except Fault Invariants := do
  let _ ← Relation.monoidSize monoid
  .ok { monoid, query }

/-- All relations or operations that answer the query. -/
def problem (inv : Invariants) : Except Fault Problem := do
  let n ← Relation.monoidSize inv.monoid
  Problem.declare [(inv.query.variableName, List.replicate inv.query.rank n)]
    (inv.query.formula inv.monoid)

end Invariants

end TensorLogic
