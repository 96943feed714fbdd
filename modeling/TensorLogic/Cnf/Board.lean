import TensorLogic.Cnf

/-!
# The tables of a search

A board holds what a search knows: which literals are true, in which order they
became so, and which clause made each of them true. Clauses are watched at two of
their literals. As long as neither is false, a clause has nothing to say, so only
the clauses that watch a literal are looked at when the literal becomes false.

Tables are indexed by variable, by clause, or by the code of a literal, and all
updates are made in place.
-/

namespace TensorLogic.Cnf

/-- A literal as a table position: `2v` for variable `v` and `2v + 1` for its
negation. -/
def code (literal : Literal) : Nat :=
  if literal > 0 then 2 * literal.var else 2 * literal.var + 1

/-- The code of the other sign. -/
def flip (c : Nat) : Nat :=
  if c % 2 = 0 then c + 1 else c - 1

/-- What is known about a literal. -/
inductive Mark where
  | unset
  | yes
  | no
  deriving DecidableEq, Inhabited

structure Board where
  /-- By code, what is known. -/
  marks : Array Mark
  /-- The codes of the true literals, in the order in which they became so. -/
  trail : Array Nat := #[]
  /-- The number of trail entries whose consequences have been drawn. -/
  drawn : Nat := 0
  /-- By variable, its position on the trail. -/
  positions : Array Nat
  /-- By variable, the clause that made its literal true; none for a decision. -/
  reasons : Array (Option Nat)
  clauses : Array (Array Nat) := #[]
  /-- By clause, one of the literals that it is watched at. -/
  watchedA : Array Nat := #[]
  /-- By clause, the other one. -/
  watchedB : Array Nat := #[]
  /-- By code, the clauses that watch the literal. -/
  watchers : Array (List Nat)
  /-- By variable, whether the conflict at hand blames it. -/
  blamed : Array Bool

namespace Board

/-- The tables for `n` variables, with nothing known. -/
def blank (n : Nat) : Board where
  marks := Array.replicate (2 * n + 2) .unset
  positions := Array.replicate (n + 1) 0
  reasons := Array.replicate (n + 1) none
  watchers := Array.replicate (2 * n + 2) []
  blamed := Array.replicate (n + 1) false

/-- What is known about a literal. -/
def mark (b : Board) (c : Nat) : Mark :=
  b.marks.getD c .unset

def clause (b : Board) (id : Nat) : Array Nat :=
  b.clauses.getD id #[]

/-- Makes an unset literal true. -/
def assign (b : Board) (c : Nat) (reason : Option Nat) : Board :=
  { b with
    marks := (b.marks.setIfInBounds c .yes).setIfInBounds (flip c) .no
    positions := b.positions.setIfInBounds (c / 2) b.trail.size
    reasons := b.reasons.setIfInBounds (c / 2) reason
    trail := b.trail.push c }

/-- Takes back the last `count` entries of the trail. -/
def retract : (count : Nat) → Board → Board
  | 0, b => b
  | count + 1, b =>
      let c := b.trail.back?.getD 0
      retract count
        { b with
          marks := (b.marks.setIfInBounds c .unset).setIfInBounds (flip c) .unset
          trail := b.trail.pop }

/-- Takes the trail back to its first `size` entries. -/
def undo (b : Board) (size : Nat) : Board :=
  let b := retract (b.trail.size - size) b
  { b with drawn := size }

/-! ## Clauses -/

/-- Adds a clause to those that watch a literal. -/
def watch (b : Board) (c id : Nat) : Board :=
  { b with watchers := b.watchers.modify c (id :: ·) }

/-- Stores a clause that is watched at two literals. -/
def store (b : Board) (clause : Array Nat) (c d : Nat) : Board :=
  let id := b.clauses.size
  let b := { b with
    clauses := b.clauses.push clause
    watchedA := b.watchedA.push c
    watchedB := b.watchedB.push d }
  (b.watch c id).watch d id

/-- Stores a clause that is watched nowhere and serves as a reason only. -/
def storeUnwatched (b : Board) (clause : Array Nat) : Board :=
  { b with
    clauses := b.clauses.push clause
    watchedA := b.watchedA.push 0
    watchedB := b.watchedB.push 0 }

/-! ## Propagation -/

/-- A literal among the first `count` of a clause that is neither false nor `other`. -/
def replacement? (marks : Array Mark) (clause : Array Nat) (other : Nat) :
    (count : Nat) → Option Nat
  | 0 => none
  | count + 1 =>
      let c := clause.getD count 0
      if c ≠ other && marks.getD c .unset ≠ .no then some c
      else replacement? marks clause other count

/-- Looks at clauses that watch `lost`, which has become false. Each moves its
watch to another literal if it can; if not, its other watched literal has to be
true. Gives the clause that turned out false, if one did. -/
def visit (lost : Nat) : List Nat → Board → Option Nat × Board
  | [], b => (none, b)
  | id :: rest, b =>
      let first := b.watchedA.getD id 0
      let other := if first = lost then b.watchedB.getD id 0 else first
      match b.mark other with
      | .yes => visit lost rest (b.watch lost id)
      | known =>
          let literals := b.clause id
          match replacement? b.marks literals other literals.size with
          | some c =>
              let b := { b with
                watchedA := b.watchedA.setIfInBounds id other
                watchedB := b.watchedB.setIfInBounds id c }
              visit lost rest (b.watch c id)
          | none =>
              let b := b.watch lost id
              match known with
              | .no => (some id, { b with watchers := b.watchers.modify lost (rest ++ ·) })
              | _ => visit lost rest (b.assign other (some id))

/-- Draws all consequences of the trail. The fuel is the number of variables, each
of which enters the trail at most once. -/
def propagate : (fuel : Nat) → Board → Option Nat × Board
  | 0, b => (none, b)
  | fuel + 1, b =>
      match b.trail[b.drawn]? with
      | none => (none, b)
      | some c =>
          let lost := flip c
          let waiting := b.watchers.getD lost []
          let b := { b with drawn := b.drawn + 1, watchers := b.watchers.setIfInBounds lost [] }
          match visit lost waiting b with
          | (none, b) => propagate fuel b
          | (some id, b) => (some id, b)

/-! ## Explaining a conflict -/

/-- Blames the variables of false literals, and notes the literals of those that
were not blamed before. -/
def blame : List Nat → Array Bool → List Nat → Array Bool × List Nat
  | [], blamed, noted => (blamed, noted)
  | c :: rest, blamed, noted =>
      if blamed.getD (c / 2) true then blame rest blamed noted
      else blame rest (blamed.setIfInBounds (c / 2) true) (c :: noted)

/-- The clause that made a true literal true, without the literal itself. -/
def causes (b : Board) (c : Nat) : List Nat :=
  match b.reasons.getD (c / 2) none with
  | some id => (b.clause id).toList.filter (· ≠ c)
  | none => []

/-- Walks down the `count` trail entries from position `low` on. A blamed variable
hands its blame on to what made it true. -/
def shiftBlame (b : Board) (low : Nat) : (count : Nat) → Array Bool → List Nat →
    Array Bool × List Nat
  | 0, blamed, noted => (blamed, noted)
  | count + 1, blamed, noted =>
      let c := b.trail.getD (low + count) 0
      if blamed.getD (c / 2) false then
        let (blamed, noted) := blame (b.causes c) (blamed.setIfInBounds (c / 2) false) noted
        shiftBlame b low count blamed noted
      else shiftBlame b low count blamed noted

/-- From a clause whose literals are all false, the clause that follows from it
and blames nothing from position `low` of the trail on. -/
def explain (b : Board) (falsified : List Nat) (low : Nat) : List Nat × Board :=
  let blamed := b.blamed
  let b := { b with blamed := #[] }
  let (blamed, noted) := blame falsified blamed []
  let (blamed, noted) := shiftBlame b low (b.trail.size - low) blamed noted
  let kept := noted.filter fun c => blamed.getD (c / 2) false
  let blamed := kept.foldl (fun blamed c => blamed.setIfInBounds (c / 2) false) blamed
  (kept, { b with blamed })

end Board

end TensorLogic.Cnf
