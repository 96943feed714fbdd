import TensorLogic.Connective
import TensorLogic.Shape
import TensorLogic.Text.Report

/-!
# Why a computation stops short

Two kinds of failure are kept apart. An `Error` is the answer to a request that
cannot be met: shapes that disagree, labels that do not fit, a table that does
not parse, an engine that gave up. A `Trap` is a broken promise of the caller or
of the machine: an index outside its shape, a literal from nowhere, a product
that leaves the word. Unsatisfiability is neither; it is a result.

Both are causes rather than texts. The wording of each stands once, in
`Error.message` and `Trap.text?`; a trap that the machine raises by itself has
no text at all.

`Run σ` is the monad of everything that has an effect on a session or a log `σ`.
A failure keeps the state as it was when it happened, so what was allocated or
recorded before stays allocated and recorded.
-/

namespace TensorLogic

/-- What a compared shape belongs to. -/
inductive Subject where
  | reshape
  | map2
  | stack
  | reduce
  | check
  | relation
  | operation
  | monoid
  | subset
  deriving DecidableEq, Repr

def Subject.name : Subject → String
  | reshape => "reshape"
  | map2 => "map2"
  | stack => "stack"
  | reduce => "reduce"
  | check => "check"
  | relation => "relation"
  | operation => "operation"
  | monoid => "monoid"
  | subset => "subset"

/-- A request that cannot be met. -/
inductive Error where
  /-- Two shapes that had to agree do not. -/
  | shapeMismatch (subject : Subject) (left right : Shape)
  /-- The number of cells does not fit a word. -/
  | tooLarge (shape : Shape)
  | elementCount (shape : Shape) (needed given : Nat)
  | axisMapLength (length : Nat) (target : Shape)
  | sourceAxis (axis rank : Nat)
  | emptyAsNonEmpty (source target : Shape)
  | notScalar (shape : Shape)
  | foldBeyondRank (axes : Nat) (shape : Shape)
  | scalarUnconcat
  | emptyStack
  /-- A predicate labels its axes by the 26 letters and asks for a least rank. -/
  | labelledRank (subject : Subject) (rank least : Nat)
  | compatibilityArity (arity : Nat)
  | stabilizerArity (arity : Nat)
  | preservationArity (arity : Nat)
  | notMatrix (shape : Shape)
  | tableRank (shape : Shape)
  | noOperands
  | labelCount (labels : String) (rank : Nat)
  | repeatedOutput (label : Char) (output : String)
  | unknownOutput (label : Char)
  | emptyTableBase
  /-- A table text that does not parse, with the report that shows where. -/
  | unreadableTable (report : Text.Report)
  | raggedTable (codes size : Nat)
  | ambiguousCell (column block : Nat)
  | declaredTwice (name : String)
  | unboundVariable (name : String)
  | unknownVariable (name : String)
  /-- The engine behind a session failed. -/
  | engine (reason : String)
  deriving DecidableEq, Repr

/-- The families that errors are reported under. -/
inductive ErrorKind where
  | shapeMismatch
  | invalidAxes
  | invalidLabels
  | malformedInput
  | unknownVariable
  | engine
  deriving DecidableEq, Repr

def ErrorKind.name : ErrorKind → String
  | shapeMismatch => "ShapeMismatch"
  | invalidAxes => "InvalidAxes"
  | invalidLabels => "InvalidLabels"
  | malformedInput => "MalformedInput"
  | unknownVariable => "UnknownVariable"
  | engine => "Engine"

namespace Error

def kind : Error → ErrorKind
  | shapeMismatch .. => .shapeMismatch
  | tooLarge _ | elementCount .. | axisMapLength .. | sourceAxis .. | emptyAsNonEmpty ..
  | notScalar _ | foldBeyondRank .. | scalarUnconcat | emptyStack | labelledRank ..
  | compatibilityArity _ | stabilizerArity _ | preservationArity _ | notMatrix _
  | tableRank _ => .invalidAxes
  | noOperands | labelCount .. | repeatedOutput .. | unknownOutput _ => .invalidLabels
  | emptyTableBase | unreadableTable _ | raggedTable .. | ambiguousCell .. | declaredTwice _
  | unboundVariable _ => .malformedInput
  | unknownVariable _ => .unknownVariable
  | engine _ => .engine

/-- Every error but an engine failure is the caller's: asking again without
changing the arguments cannot succeed. -/
def isMalformedInput (e : Error) : Bool :=
  match e.kind with
  | .engine => false
  | _ => true

/-- The cause in words, without the name of its family. -/
def detail : Error → String
  | shapeMismatch subject left right =>
      subject.name ++ ": " ++ Shape.text left ++ " vs " ++ Shape.text right
  | tooLarge shape => "shape " ++ Shape.text shape ++ " is too large"
  | elementCount shape needed given =>
      "shape " ++ Shape.text shape ++ " needs " ++ needed.repr ++ " elements, got " ++ given.repr
  | axisMapLength length target =>
      "axis map of length " ++ length.repr ++ " for target shape " ++ Shape.text target
  | sourceAxis axis rank =>
      "source axis " ++ axis.repr ++ " out of range for rank " ++ rank.repr
  | emptyAsNonEmpty source target =>
      "cannot view empty tensor of shape " ++ Shape.text source ++ " as non-empty shape "
        ++ Shape.text target
  | notScalar shape => "expected a scalar, found shape " ++ Shape.text shape
  | foldBeyondRank axes shape =>
      "cannot fold " ++ axes.repr ++ " axes of shape " ++ Shape.text shape
  | scalarUnconcat => "cannot unconcat a rank-0 tensor"
  | emptyStack => "cannot stack zero tensors"
  | labelledRank subject rank least =>
      subject.name ++ " tensor of rank " ++ rank.repr ++ " needs between " ++ least.repr
        ++ " and 26 axes"
  | compatibilityArity arity =>
      "compatibility needs a relation of arity 1 to 3, got " ++ arity.repr
  | stabilizerArity arity =>
      "stabilizer needs an operation of arity 2 or 3, got " ++ arity.repr
  | preservationArity arity =>
      "preservation needs a relation of arity 1 to 8, got " ++ arity.repr
  | notMatrix shape => "Galois connection must be a matrix, got shape " ++ Shape.text shape
  | tableRank shape => "table tensor must have rank 3, found shape " ++ Shape.text shape
  | noOperands => "join needs at least one operand"
  | labelCount labels rank =>
      "labels '" ++ labels ++ "' do not fit rank-" ++ rank.repr ++ " operand"
  | repeatedOutput label output =>
      "output label '" ++ label.toString ++ "' repeated in '" ++ output ++ "'"
  | unknownOutput label =>
      "output label '" ++ label.toString ++ "' does not occur in any operand"
  | emptyTableBase => "table base size must be positive"
  | unreadableTable report => report.text
  | raggedTable codes size => codes.repr ++ " codes do not fill rows of " ++ size.repr
  | ambiguousCell column block =>
      "cell (" ++ column.repr ++ ", " ++ block.repr ++ ") does not hold exactly one value"
  | declaredTwice name => "variable '" ++ name ++ "' declared twice"
  | unboundVariable name => "no tensor bound to variable '" ++ name ++ "'"
  | unknownVariable name => "'" ++ name ++ "'"
  | engine reason => reason

def message (e : Error) : String :=
  match e.kind with
  | .shapeMismatch => "shape mismatch in " ++ e.detail
  | .invalidAxes => "invalid axes: " ++ e.detail
  | .invalidLabels => "invalid labels: " ++ e.detail
  | .malformedInput => "malformed input: " ++ e.detail
  | .unknownVariable => "unknown variable " ++ e.detail
  | .engine => "SAT engine failure: " ++ e.detail

end Error

/-- A broken promise, of the caller or of the machine. -/
inductive Trap where
  /-- Word arithmetic left its range. -/
  | overflow
  /-- A buffer with room for this many entries takes more bytes than a request may name. -/
  | capacity (entries : Nat)
  /-- A position outside the buffer or the list that was read. -/
  | outOfBounds
  | wrongRank (index : Index) (shape : Shape)
  | outsideShape (index : Index) (shape : Shape)
  /-- A tensor of this shape was to be filled, and its size does not fit a word. -/
  | oversized (shape : Shape)
  | arity (op : Connective) (count : Nat)
  | zeroLiteral
  | unassigned (number count : Nat)
  /-- A clause names a variable that its session never handed out. -/
  | unallocated (literal : Int) (count : Nat)
  | foreignLiteral
  | literalRange (count : Nat)
  /-- A solver went on finding models after every assignment had been ruled out. -/
  | endlessModels
  deriving DecidableEq, Repr

/-- The text that goes with a trap, for those that have one. -/
def Trap.text? : Trap → Option String
  | overflow | capacity _ | outOfBounds | endlessModels => none
  | wrongRank index shape =>
      some ("index " ++ Shape.text index ++ " has wrong rank for shape " ++ Shape.text shape)
  | outsideShape index shape =>
      some ("index " ++ Shape.text index ++ " out of range for shape " ++ Shape.text shape)
  | oversized shape => some (Error.tooLarge shape).message
  | arity op count => some (op.name ++ " applied to " ++ count.repr ++ " arguments")
  | zeroLiteral => some "literal 0 is not a variable"
  | unassigned number count =>
      some ("variable " ++ number.repr ++ " outside assignment of " ++ count.repr ++ " variables")
  | unallocated literal count =>
      some ("literal " ++ literal.repr ++ " was not allocated in this session ("
        ++ count.repr ++ " variables)")
  | foreignLiteral => some "foreign literal"
  | literalRange count =>
      some ("variable count " ++ count.repr ++ " exceeds the literal range")

/-- Why a computation stopped short. -/
inductive Fault where
  | refused (cause : Error)
  | trapped (cause : Trap)
  deriving DecidableEq, Repr

/-- Computations over a state that a failure leaves as it found it. -/
abbrev Run (σ : Type) := EStateM Fault σ

instance {σ : Type} : MonadLift (Except Fault) (Run σ) where
  monadLift
    | .ok a => pure a
    | .error fault => throw fault

/-- The outcome of a computation that has no state to speak of. -/
def Run.value {α : Type} (x : Run Unit α) : Except Fault α :=
  match x () with
  | .ok a _ => .ok a
  | .error fault _ => .error fault

def refuse {m : Type → Type} [MonadExceptOf Fault m] {α : Type} (cause : Error) : m α :=
  throw (.refused cause)

/-- A promise found broken. -/
def trap {m : Type → Type} [MonadExceptOf Fault m] {α : Type} (cause : Trap) : m α :=
  throw (.trapped cause)

end TensorLogic
