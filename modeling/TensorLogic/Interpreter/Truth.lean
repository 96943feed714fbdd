import TensorLogic.Interpreter.Basic

/-!
# Truth values

The two-element algebra, for checking a formula directly. It has no state, and it
evaluates its aggregators on the truth values at hand rather than by scanning.
-/

namespace TensorLogic

/-- Whether each value equals the one after it. -/
def neighboursAgree : List Bool → Bool
  | a :: b :: rest => a == b && neighboursAgree (b :: rest)
  | _ => true

/-- Formulas as truth values. -/
def truthValues : Interpreter Unit Bool where
  lift value := pure value
  neg a := pure !a
  conj a b := pure (a && b)
  disj a b := pure (a || b)
  equ a b := pure (a == b)
  imp a b := pure (!a || b)
  all values := pure (values.all fun a => a)
  any values := pure (values.any fun a => a)
  one values := pure (values.count true == 1)
  eqs values := pure (neighboursAgree values)

end TensorLogic
