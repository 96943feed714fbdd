/-!
# Shapes, indices and the row-major walk

A shape lists the extents of the axes and an index lists one coordinate per
axis. Everything that visits cells visits them in row-major order, the last
axis varying fastest; `indices` is that order written down as a list.

A shape may describe far more cells than anyone will look at: a constant tensor
costs one cell whatever its extents. So nothing here ever builds `indices` for
its own sake. `foldIndices` threads an accumulator through the same order one
index at a time, and `Walk` is the order as a cursor that can be stopped after
any number of steps.
-/

namespace TensorLogic

/-- The extents of the axes, outermost first. -/
abbrev Shape := List Nat

abbrev Index := List Nat

namespace Shape

/-- The shape in brackets, as every message and every printed tensor shows it. -/
def text (shape : List Nat) : String :=
  "[" ++ ", ".intercalate (shape.map Nat.repr) ++ "]"

/-- The number of cells, as a number that knows no bound. -/
def cells (shape : Shape) : Nat :=
  shape.foldr (· * ·) 1

/-- Every index of a shape in row-major order: one empty index for rank 0, none
when some extent is 0. -/
def indices : Shape → List Index
  | [] => [[]]
  | n :: rest => (List.range n).flatMap fun i => (indices rest).map (i :: ·)

/-- Runs `step` at `first`, `first + 1`, and so on, `count` times. -/
@[specialize] def countUp {m : Type → Type} [Monad m] {β : Type} (step : Nat → β → m β) :
    (count first : Nat) → β → m β
  | 0, _, acc => pure acc
  | count + 1, first, acc => do
      let acc ← step first acc
      countUp step count (first + 1) acc

/-- The visit behind `foldIndices`, for a shape without a zero extent. -/
@[specialize] def visit {m : Type → Type} [Monad m] {β : Type} :
    Shape → (β → Index → m β) → β → m β
  | [], step, acc => step acc []
  | n :: rest, step, acc =>
      countUp (fun i acc => visit rest (fun acc index => step acc (i :: index)) acc) n 0 acc

/-- Runs `step` at every index of the shape in row-major order. A zero extent
ends the visit before it starts, however large the other extents are. -/
@[specialize] def foldIndices {m : Type → Type} [Monad m] {β : Type} (shape : Shape)
    (step : β → Index → m β) (acc : β) : m β :=
  if shape.contains 0 then pure acc else visit shape step acc

/-- The results of `f` at every index, in row-major order. -/
@[specialize] def collect {m : Type → Type} [Monad m] {β : Type} (shape : Shape)
    (f : Index → m β) : m (Array β) :=
  foldIndices shape (fun acc index => do let cell ← f index; pure (acc.push cell)) #[]

end Shape

/-- The index after `index` in row-major order: the last coordinate that can
still grow does, and all coordinates behind it start again at 0. -/
def Index.next? : Shape → Index → Option Index
  | n :: shape, i :: index =>
      match Index.next? shape index with
      | some behind => some (i :: behind)
      | none => if i + 1 < n then some ((i + 1) :: index.map fun _ => 0) else none
  | _, _ => none

/-- Where a walk stands: before the first index, at an index, or past the last. -/
inductive Walk.Phase where
  | start
  | inside
  | finished
  deriving DecidableEq, Repr

/-- A cursor over the indices of a shape. -/
structure Walk where
  shape : Shape
  index : Index
  phase : Walk.Phase

namespace Walk

def ofShape (shape : Shape) : Walk :=
  { shape, index := shape.map fun _ => 0, phase := .start }

/-- One step: the index arrived at, or nothing once the walk is over. -/
def advance (w : Walk) : Option Index × Walk :=
  match w.phase with
  | .finished => (none, w)
  | .start =>
      if w.shape.contains 0 then (none, { w with phase := .finished })
      else (some w.index, { w with phase := .inside })
  | .inside =>
      match Index.next? w.shape w.index with
      | some index => (some index, { w with index })
      | none => (none, { w with phase := .finished })

/-- Up to `limit` further indices. -/
def take : (limit : Nat) → Walk → List Index
  | 0, _ => []
  | limit + 1, w =>
      match w.advance with
      | (some index, w) => index :: take limit w
      | (none, _) => []

end Walk

end TensorLogic
