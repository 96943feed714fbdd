import TensorLogic.Interpreter.Basic

/-!
# What a predicate asks of its arguments

A relation of arity `r` on `n` elements is a tensor of `r` axes of extent `n`. An
operation of arity `k` is stored as its graph, with the value on the first axis
and the arguments behind it, so it has `k + 1` axes. A monoid of unary maps is a
tensor of three axes, the last of which runs over the maps.

Predicates check this before they touch a cell, and they label their axes by the
letters of the alphabet.
-/

namespace TensorLogic.Relation

variable {α : Type}

/-- Asks for `rank` axes of extent `n`. -/
def requireExtent (subject : Subject) (t : Tensor α) (rank n : Nat) : Except Fault Unit :=
  if t.shape = List.replicate rank n then .ok ()
  else refuse (.shapeMismatch subject (List.replicate rank n) t.shape)

/-- Asks for `rank` axes of one extent, that of the first axis. -/
def requireCube (subject : Subject) (t : Tensor α) (rank : Nat) : Except Fault Unit :=
  requireExtent subject t rank (t.shape.headD 0)

def monoidSize (monoid : Tensor α) : Except Fault Nat :=
  match monoid.shape with
  | [n, m, k] => if n = m then .ok n else refuse (.shapeMismatch .monoid [n, n, 0] [n, m, k])
  | shape => refuse (.shapeMismatch .monoid [shape.headD 0, shape.headD 0, 0] shape)

def letters : List Char :=
  "abcdefghijklmnopqrstuvwxyz".toList

/-- One letter per axis, for a tensor of at least `least` and at most 26 axes. -/
def axisLabels (subject : Subject) (rank least : Nat) : Except Fault String :=
  if least ≤ rank ∧ rank ≤ 26 then .ok (String.ofList (letters.take rank))
  else refuse (.labelledRank subject rank least)

/-- The labels without the one at `axis`. -/
def without (labels : String) (axis : Nat) : String :=
  String.ofList (labels.toList.eraseIdx axis)

end TensorLogic.Relation
