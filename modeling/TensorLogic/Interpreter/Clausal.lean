import TensorLogic.Interpreter.Basic
import TensorLogic.Session

/-!
# Gates as clauses

Under this interpreter a value is a literal. Every operation but negation
allocates one fresh variable for its output and sends the session the clauses
that say, in both directions, that the output has the value of the gate. So the
inputs stay free, and once they are chosen every gate is determined. Negation is
a sign and costs nothing. Equal calls do not share a gate.

A conjunction or a disjunction of any length is a single gate; of one value it is
that value.
-/

namespace TensorLogic.Clausal

variable {σ : Type} [Session σ]

/-- A fresh variable that the clause of one literal pins to `value`. -/
def lift (value : Bool) : Run σ Literal := do
  let out ← Session.allocate
  Session.ensure [if value then out else -out]
  pure out

/-- A fresh variable that is true exactly if all inputs are. -/
def andGate (inputs : List Literal) : Run σ Literal := do
  let out ← Session.allocate
  inputs.forM fun x => Session.ensure [-out, x]
  Session.ensure (out :: inputs.map (- ·))
  pure out

/-- A fresh variable that is true exactly if some input is. -/
def orGate (inputs : List Literal) : Run σ Literal := do
  let out ← Session.allocate
  inputs.forM fun x => Session.ensure [out, -x]
  Session.ensure (-out :: inputs)
  pure out

/-- A fresh variable that is true exactly if the inputs agree. -/
def equGate (a b : Literal) : Run σ Literal := do
  let out ← Session.allocate
  Session.ensure [-out, -a, b]
  Session.ensure [-out, a, -b]
  Session.ensure [out, a, b]
  Session.ensure [out, -a, -b]
  pure out

/-- The operations that have to be given. -/
def gates : Gates σ Literal where
  lift := lift
  neg a := pure (-a)
  conj a b := andGate [a, b]
  disj a b := orGate [a, b]
  equ := equGate

/-- A conjunction of any length, by at most one gate. -/
def all : List Literal → Run σ Literal
  | [] => lift true
  | [a] => pure a
  | inputs => andGate inputs

/-- A disjunction of any length, by at most one gate. -/
def any : List Literal → Run σ Literal
  | [] => lift false
  | [a] => pure a
  | inputs => orGate inputs

/-- Formulas as literals of a session. -/
def literals : Interpreter σ Literal :=
  { gates.interpreter with
    imp := fun a b => orGate [-a, b]
    all
    any
    eqs := gates.eqs all }

end TensorLogic.Clausal
