import TensorLogic.Interpreter.Basic

/-!
# The list of calls

An interpreter that computes nothing and writes down what it is asked to do. Its
values are names, and it gives only the operations that have to be given, so the
list shows how the others are made of them.
-/

namespace TensorLogic

inductive Call where
  | lift (value : Bool)
  | not (a : String)
  | and (a b : String)
  | or (a b : String)
  | equ (a b : String)
  deriving DecidableEq, Repr

def Call.text : Call → String
  | lift true => "lift(true)"
  | lift false => "lift(false)"
  | not a => "not(" ++ a ++ ")"
  | and a b => "and(" ++ a ++ "," ++ b ++ ")"
  | or a b => "or(" ++ a ++ "," ++ b ++ ")"
  | equ a b => "equ(" ++ a ++ "," ++ b ++ ")"

structure Transcript where
  calls : Array Call := #[]

namespace Transcript

/-- The name of the result of the `k`-th call, counted from 1. -/
def gateName (k : Nat) : String :=
  "g" ++ k.repr

/-- Writes a call down and names its result. -/
def record (call : Call) : Run Transcript String :=
  modifyGet fun t => (gateName (t.calls.size + 1), { calls := t.calls.push call })

/-- The calls as lines `name=call`. -/
def lines (t : Transcript) : List String :=
  t.calls.toList.zipIdx.map fun (call, k) => gateName (k + 1) ++ "=" ++ call.text

/-- Formulas as names of the calls that compute them. -/
def names : Interpreter Transcript String :=
  Gates.interpreter
    { lift := fun value => record (.lift value)
      neg := fun a => record (.not a)
      conj := fun a b => record (.and a b)
      disj := fun a b => record (.or a b)
      equ := fun a b => record (.equ a b) }

/-- A tensor of input names: the cells of variable `x` are `x0`, `x1`, and so on. -/
def inputs (name : String) (shape : Shape) : Except Fault (Tensor String) := do
  let size ← Size.plain shape
  Tensor.dense shape (Array.ofFn fun i : Fin size => name ++ i.val.repr)

end Transcript

end TensorLogic
