import TensorLogic.Tensor.Join

/-!
# Interpreters of boolean formulas

A formula is written once, against the operations of an `Interpreter`, and means
whatever the interpreter makes of them: truth values, or literals whose gates go
to a solver, or a list of the calls that were made.

Five operations have to be given (`Gates`). The aggregators and the implication
follow from them (`Gates.interpreter`), and an interpreter may know a better way
for each. Everything below that, down to the operations on tensors, is the same
for all interpreters; formulas use nothing else, so they cannot find out who is
running them.
-/

namespace TensorLogic

/-- The operations that every interpreter has to give itself. -/
structure Gates (σ α : Type) where
  lift : Bool → Run σ α
  neg : α → Run σ α
  conj : α → α → Run σ α
  disj : α → α → Run σ α
  equ : α → α → Run σ α

/-- The given operations, with those that an interpreter may do its own way. -/
structure Interpreter (σ α : Type) extends Gates σ α where
  imp : α → α → Run σ α
  all : List α → Run σ α
  any : List α → Run σ α
  one : List α → Run σ α
  eqs : List α → Run σ α

namespace Gates

variable {σ α : Type} (g : Gates σ α)

/-- `a ⇒ b`, as `¬a ∨ b`. -/
def imp (a b : α) : Run σ α := do
  let na ← g.neg a
  g.disj na b

def all : List α → Run σ α
  | [] => g.lift true
  | a :: rest => rest.foldlM g.conj a

def any : List α → Run σ α
  | [] => g.lift false
  | a :: rest => rest.foldlM g.disj a

/-- Scans on while tracking "at least one was true" and "at least two were true";
there is no second value to speak of before the second one has been seen. -/
def scanOne (seenOne : α) (seenTwo : Option α) : List α → Run σ (α × Option α)
  | [] => pure (seenOne, seenTwo)
  | a :: rest => do
      let both ← g.conj seenOne a
      let seenTwo ← match seenTwo with
        | some two => g.disj two both
        | none => pure both
      let seenOne ← g.disj seenOne a
      scanOne seenOne (some seenTwo) rest

/-- At least one is true, and not at least two. -/
def one : List α → Run σ α
  | [] => g.lift false
  | a :: rest => do
      match ← g.scanOne a none rest with
      | (seenOne, some seenTwo) =>
          let notTwo ← g.neg seenTwo
          g.conj seenOne notTwo
      | (seenOne, none) => pure seenOne

/-- Every value against the first, conjoined the interpreter's way. -/
def eqs (conjoin : List α → Run σ α) : List α → Run σ α
  | [] => g.lift true
  | a :: rest => do
      let pairs ← rest.mapM (g.equ a)
      conjoin pairs

/-- The interpreter that adds nothing of its own. -/
def interpreter : Interpreter σ α :=
  { g with imp := g.imp, all := g.all, any := g.any, one := g.one, eqs := g.eqs g.all }

end Gates

namespace Interpreter

variable {σ α : Type} (I : Interpreter σ α)

def truth : Run σ α :=
  I.lift true

def falsity : Run σ α :=
  I.lift false

/-- `a ≤ b` with false below true, which is implication. -/
def leq (a b : α) : Run σ α :=
  I.imp a b

def aggregate : Aggregate → List α → Run σ α
  | .all => I.all
  | .any => I.any
  | .one => I.one
  | .eqs => I.eqs

/-- Applies a connective; a wrong number of arguments is a trap. -/
def connect (op : Connective) (args : List α) : Run σ α :=
  match op, args with
  | .id, [a] => pure a
  | .not, [a] => I.neg a
  | .and, a :: rest => I.all (a :: rest)
  | .or, a :: rest => I.any (a :: rest)
  | .imp, [a, b] => I.imp a b
  | .equ, [a, b] => I.equ a b
  | .leq, [a, b] => I.leq a b
  | _, _ => trap (.arity op args.length)

/-! ## Operations on tensors -/

/-- A truth value at every index, embedded once. -/
def constant (shape : Shape) (value : Bool) : Run σ (Tensor α) := do
  let cell ← I.lift value
  pure (Tensor.constant shape cell)

/-- Embeds a tensor of truth values cell by cell. -/
def liftTensor [Cell α] (t : Tensor Bool) : Run σ (Tensor α) :=
  t.map I.lift

def map [Cell α] (op : Connective) (t : Tensor α) : Run σ (Tensor α) :=
  t.map fun a => I.connect op [a]

def map2 [Cell α] (op : Connective) (a b : Tensor α) : Run σ (Tensor α) :=
  Tensor.map2 a b fun x y => I.connect op [x, y]

def fold [Cell α] (agg : Aggregate) (axes : Nat) (t : Tensor α) : Run σ (Tensor α) :=
  t.fold axes (I.aggregate agg)

/-- Joins the operands, combines them pointwise with `op`, and aggregates every
label away that `output` lacks. -/
def reduce [Cell α] (agg : Aggregate) (output : String) (op : Connective)
    (operands : List (Labelled α)) : Run σ (Tensor α) :=
  TensorLogic.reduce output operands (I.connect op) (I.aggregate agg)

end Interpreter

end TensorLogic
