import TensorLogic.Bindings
import TensorLogic.Relation.Binary
import TensorLogic.Relation.Essential
import TensorLogic.Relation.Galois
import TensorLogic.Relation.Monoid
import TensorLogic.Relation.Operation

/-!
# Formulas over tensor variables

A formula is an expression whose values are tensors over whatever an interpreter
computes with. Its constructors are the operations of the algebra, the views of a
tensor, and the predicates on relations and operations; where an operation works
on single values, its arguments have to be scalars and its result is one.

`eval` goes through an expression from left to right, each argument completely
before the next, and stops at the first fault. The order matters: under the
clausal interpreter it is the order in which variables are numbered. A value that
several parts share is computed once, by `given`.
-/

namespace TensorLogic

inductive Property where
  | reflexive
  | symmetric
  | transitive
  | equivalence
  | essential
  | function
  | majority
  | maltsev
  | essentialOperation
  | monoid
  deriving DecidableEq, Repr

inductive Pairing where
  /-- A relation that every map of a monoid keeps. -/
  | compatible
  /-- An operation that makes maps of a monoid out of maps of the monoid. -/
  | stabilizer
  /-- A relation that an operation preserves. -/
  | preserved
  /-- A set of rows that is closed in a Galois connection. -/
  | closedSubset
  deriving DecidableEq, Repr

/-- The connectives that have two arguments. -/
inductive Dyad where
  | and
  | or
  | imp
  | leq
  | equ
  deriving DecidableEq, Repr

/-- A formula over named tensor variables. -/
inductive Formula where
  | var (name : String)
  /-- A tensor of truth values, embedded cell by cell. -/
  | lift (t : Tensor Bool)
  | constant (shape : Shape) (value : Bool)
  | map (op : Connective) (arg : Formula)
  | map2 (op : Connective) (left right : Formula)
  /-- Folds the given number of trailing axes, or all of them. -/
  | fold (agg : Aggregate) (axes : Option Nat) (arg : Formula)
  /-- A contraction; `labels` runs along with the operands. -/
  | reduce (agg : Aggregate) (output : String) (op : Connective) (labels : List String)
      (operands : List Formula)
  | reshape (shape : Shape) (axes : List Axis) (arg : Formula)
  /-- One element of `unconcat`. -/
  | slice (k : Nat) (arg : Formula)
  | stack (parts : List Formula)
  | connect (op : Connective) (args : List Formula)
  | aggregate (agg : Aggregate) (args : List Formula)
  | truth
  | falsity
  /-- A truth value, embedded as a scalar. -/
  | lifted (value : Bool)
  | id (arg : Formula)
  | not (arg : Formula)
  | dyad (op : Dyad) (left right : Formula)
  | property (which : Property) (arg : Formula)
  | pairing (which : Pairing) (left right : Formula)
  /-- Computes `value` first, and `body` with `name` bound to it. -/
  | given (name : String) (value body : Formula)
  /-- A part that could not be built; it fails where it stands. -/
  | broken (fault : Fault)

namespace Formula

variable {σ α : Type} [Cell α] (I : Interpreter σ α)

def holds (which : Property) (t : Tensor α) : Run σ α :=
  match which with
  | .reflexive => Relation.isReflexive I t
  | .symmetric => Relation.isSymmetric I t
  | .transitive => Relation.isTransitive I t
  | .equivalence => Relation.isEquivalence I t
  | .essential => Relation.isEssential I t
  | .function => Relation.isFunction I t
  | .majority => Relation.isMajority I t
  | .maltsev => Relation.isMaltsev I t
  | .essentialOperation => Relation.isEssentialOperation I t
  | .monoid => Relation.isMonoid I t

def holdsOf (which : Pairing) (a b : Tensor α) : Run σ α :=
  match which with
  | .compatible => Relation.isCompatible I a b
  | .stabilizer => Relation.isStabilizer I a b
  | .preserved => Relation.isPreserved I a b
  | .closedSubset => Relation.isClosedSubset I a b

def combine (op : Dyad) (a b : α) : Run σ α :=
  match op with
  | .and => I.conj a b
  | .or => I.disj a b
  | .imp => I.imp a b
  | .leq => I.leq a b
  | .equ => I.equ a b

mutual

/-- The value of a formula under an interpreter, for tensors bound to its variables. -/
def eval (env : Bindings α) : Formula → Run σ (Tensor α)
  | var name => do
      let t : Tensor α ← env.get name
      pure t
  | lift t => I.liftTensor t
  | constant shape value => I.constant shape value
  | map op arg => do
      let t ← eval env arg
      I.map op t
  | map2 op left right => do
      let a ← eval env left
      let b ← eval env right
      I.map2 op a b
  | fold agg axes arg => do
      let t ← eval env arg
      I.fold agg (axes.getD t.rank) t
  | reduce agg output op labels operands => do
      let tensors ← evalAll env operands
      I.reduce agg output op (List.zipWith Tensor.named tensors labels)
  | reshape shape axes arg => do
      let t ← eval env arg
      let view : Tensor α ← t.reshape shape axes
      pure view
  | slice k arg => do
      let t ← eval env arg
      let parts : List (Tensor α) ← t.unconcat
      match parts[k]? with
      | some part => pure part
      | none => trap .outOfBounds
  | stack parts => do
      let tensors ← evalAll env parts
      let whole : Tensor α ← Tensor.stack tensors
      pure whole
  | connect op args => do
      let cells ← evalScalars env args
      let cell ← I.connect op cells
      pure (.scalar cell)
  | aggregate agg args => do
      let cells ← evalScalars env args
      let cell ← I.aggregate agg cells
      pure (.scalar cell)
  | truth => do
      let cell ← I.truth
      pure (.scalar cell)
  | falsity => do
      let cell ← I.falsity
      pure (.scalar cell)
  | lifted value => do
      let cell ← I.lift value
      pure (.scalar cell)
  | id arg => do
      let t ← eval env arg
      let cell : α ← t.toScalar
      pure (.scalar cell)
  | not arg => do
      let t ← eval env arg
      let cell : α ← t.toScalar
      let cell ← I.neg cell
      pure (.scalar cell)
  | dyad op left right => do
      let t ← eval env left
      let a : α ← t.toScalar
      let t ← eval env right
      let b : α ← t.toScalar
      let cell ← combine I op a b
      pure (.scalar cell)
  | property which arg => do
      let t ← eval env arg
      let cell ← holds I which t
      pure (.scalar cell)
  | pairing which left right => do
      let a ← eval env left
      let b ← eval env right
      let cell ← holdsOf I which a b
      pure (.scalar cell)
  | given name value body => do
      let t ← eval env value
      eval (env.insert name t) body
  | broken fault => throw fault

/-- The values of several formulas, in order. -/
def evalAll (env : Bindings α) : List Formula → Run σ (List (Tensor α))
  | [] => pure []
  | arg :: args => do
      let t ← eval env arg
      let others ← evalAll env args
      pure (t :: others)

/-- The values of several scalar formulas, in order. -/
def evalScalars (env : Bindings α) : List Formula → Run σ (List α)
  | [] => pure []
  | arg :: args => do
      let t ← eval env arg
      let cell : α ← t.toScalar
      let others ← evalScalars env args
      pure (cell :: others)

end

/-- The value of a formula that has to be a scalar. -/
def compute (env : Bindings α) (formula : Formula) : Run σ α := do
  let t ← eval I env formula
  let cell : α ← t.toScalar
  pure cell

end Formula

end TensorLogic
