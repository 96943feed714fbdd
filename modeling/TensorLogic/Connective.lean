/-!
# Connectives and aggregators

The vocabulary that formulas are written in. A connective combines a fixed
number of values, or any positive number for the two associative ones; an
aggregator folds a block of values of any length, the empty block included.
-/

namespace TensorLogic

/-- Pointwise connectives, usable in maps and contractions. -/
inductive Connective where
  | id
  | not
  | and
  | or
  | imp
  | equ
  | leq
  deriving DecidableEq, Repr

namespace Connective

def name : Connective → String
  | id => "Id"
  | not => "Not"
  | and => "And"
  | or => "Or"
  | imp => "Imp"
  | equ => "Equ"
  | leq => "Leq"

def every : List Connective :=
  [id, not, and, or, imp, equ, leq]

/-- Whether the connective takes `n` arguments: conjunction and disjunction take
one or more, identity and negation one, the others two. -/
def accepts (op : Connective) (n : Nat) : Bool :=
  match op with
  | id | not => n == 1
  | and | or => n ≥ 1
  | imp | equ | leq => n == 2

end Connective

/-- Aggregators, usable in folds and contractions. -/
inductive Aggregate where
  /-- Conjunction; the empty block is true. -/
  | all
  /-- Disjunction; the empty block is false. -/
  | any
  /-- Exactly one cell is true; the empty block is false. -/
  | one
  /-- All cells are equal; the empty block is true. -/
  | eqs
  deriving DecidableEq, Repr

namespace Aggregate

def name : Aggregate → String
  | all => "All"
  | any => "Any"
  | one => "One"
  | eqs => "Eqs"

def every : List Aggregate :=
  [all, any, one, eqs]

end Aggregate

end TensorLogic
