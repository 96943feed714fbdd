import TensorLogic.Cnf.Board

/-!
# The least model of a working formula

The search decides variables in the order of their numbers and tries false first,
so the first model it meets is the least one in the order that compares variable 1
first and puts false below true. Between decisions it propagates. Propagation and
the clauses learnt on the way only add what follows from the decisions made so
far, so they save work and cannot change which model comes first.

When a clause turns out false, everything that was propagated since the last
decision is resolved away. What is left is a clause that follows from the formula
and blames earlier literals only. If it blames the last decision, that variable
has to be true and the search goes on; if not, the decision did not matter and the
clause is passed further up.

Every call of `search` has one more variable assigned than the call it came from,
which is what its fuel counts. And no answer rests on the bookkeeping alone: a
model is checked against the formula before it is handed out.
-/

namespace TensorLogic.Cnf

/-- What a search below some decisions can come back with. -/
inductive Outcome where
  | model
  /-- A clause that follows from the formula and is false under those decisions. -/
  | conflict (clause : List Nat)
  | outOfFuel

namespace Board

/-- The first unset variable from `v` on, among `count` of them. -/
def nextUnset? (b : Board) : (count v : Nat) → Option Nat
  | 0, _ => none
  | count + 1, v => if b.mark (2 * v) = .unset then some v else nextUnset? b count (v + 1)

/-- The literal that became false last. -/
def latest (b : Board) : List Nat → Nat → Nat
  | [], best => best
  | c :: rest, best =>
      if b.positions.getD (c / 2) 0 > b.positions.getD (best / 2) 0 then latest b rest c
      else latest b rest best

/-- Stores a learnt clause, all of whose literals but `c` are false, and makes `c`
true by it. -/
def learn (b : Board) (clause : List Nat) (c : Nat) : Board :=
  let id := b.clauses.size
  let b :=
    match clause.filter (· ≠ c) with
    | [] => b.storeUnwatched clause.toArray
    | d :: rest => b.store clause.toArray c (b.latest rest d)
  b.assign c (some id)

/-- Searches on below the decisions on the trail, of which the last stands right
before position `low`. All variables before `next` are set. -/
def search (count : Nat) : (fuel low next : Nat) → Board → Outcome × Board
  | 0, _, _, b => (.outOfFuel, b)
  | fuel + 1, low, next, b =>
      match b.propagate (count + 1) with
      | (some id, b) =>
          let (clause, b) := b.explain (b.clause id).toList low
          (.conflict clause, b)
      | (none, b) =>
          match b.nextUnset? (count + 1 - next) next with
          | none => (.model, b)
          | some v =>
              let depth := b.trail.size
              match search count fuel (depth + 1) (v + 1) (b.assign (2 * v + 1) none) with
              | (.conflict clause, b) =>
                  let b := b.undo depth
                  if clause.contains (2 * v) then
                    search count fuel low (v + 1) (b.learn clause (2 * v))
                  else
                    let (clause, b) := b.explain clause low
                    (.conflict clause, b)
              | other => other

/-- Enters the clauses of a formula: a clause of one literal makes it true at once,
a longer one is watched at its first two. Gives none once a clause is empty or two
literals contradict each other. -/
def enter : List Clause → Board → Option Board
  | [], b => some b
  | clause :: rest, b =>
      match clause.map code with
      | [] => none
      | [c] =>
          match b.mark c with
          | .no => none
          | .yes => enter rest b
          | .unset =>
              let id := b.clauses.size
              enter rest ((b.storeUnwatched #[c]).assign c (some id))
      | c :: d :: more => enter rest (b.store (c :: d :: more).toArray c d)

def assignment (b : Board) (count : Nat) : Assignment where
  values := Array.ofFn fun i : Fin count => b.mark (2 * (i.val + 1)) = .yes

end Board

/-- The least model, or none if there is no model. -/
def solve (f : Cnf) : Except Error (Option Assignment) :=
  match (Board.blank f.variables).enter f.clauses.toList with
  | none => .ok none
  | some b =>
      match b.search f.variables (f.variables + 1) 0 1 with
      | (.conflict _, _) => .ok none
      | (.outOfFuel, _) => .error (.engine "the search ran out of steps")
      | (.model, b) =>
          let model := b.assignment f.variables
          if f.isModel model then .ok (some model)
          else .error (.engine "the search left a clause unsatisfied")

end TensorLogic.Cnf
