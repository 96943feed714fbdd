import TensorLogic.Relation.Operation

/-!
# Monoids of unary maps

A monoid is a tensor `[n, n, m]` that holds the graphs of `m` maps along its last
axis. The predicates here say when it is closed, when a relation is kept by all
of its maps, and when feeding an operation with maps gives maps again.

Coordinates are replaced one axis at a time. After each replacement the join
carries the map's own axis along, so all coordinates of a tuple meet the same map.
-/

namespace TensorLogic.Relation

variable {σ α : Type} [Cell α] (I : Interpreter σ α)

/-- The composite of any two maps is exactly one of the maps. -/
def isMonoid (monoid : Tensor α) : Run σ α := do
  let _ : Nat ← monoidSize monoid
  let composed ← I.reduce .any "xzij" .and [monoid.named "xyi", monoid.named "yzj"]
  let equal ← I.reduce .all "kij" .equ [composed.named "xzij", monoid.named "xzk"]
  isFunction I equal

/-- The tuples that some map makes of a tuple of the relation. -/
def image (rel monoid : Tensor α) : Run σ (Tensor α) := do
  match rel.rank with
  | 1 => I.reduce .any "y" .and [rel.named "x", monoid.named "yxp"]
  | 2 =>
      let first ← I.reduce .any "uyp" .and [rel.named "xy", monoid.named "uxp"]
      I.reduce .any "uv" .and [first.named "uyp", monoid.named "vyp"]
  | 3 =>
      let first ← I.reduce .any "uyzp" .and [rel.named "xyz", monoid.named "uxp"]
      let second ← I.reduce .any "uvzp" .and [first.named "uyzp", monoid.named "vyp"]
      I.reduce .any "uvw" .and [second.named "uvzp", monoid.named "wzp"]
  | rank => refuse (.compatibilityArity rank)

/-- Every map sends tuples of the relation to tuples of the relation. -/
def isCompatible (rel monoid : Tensor α) : Run σ α := do
  let n : Nat ← monoidSize monoid
  requireExtent .relation rel rel.rank n
  let reached ← image I rel monoid
  let contained ← I.map2 .leq reached rel
  let all ← I.fold .all rel.rank contained
  all.toScalar

/-- For each choice of maps to feed the operation with, and each further map,
whether the composite equals it at every element. -/
def composite (op monoid : Tensor α) : Run σ (Tensor α) := do
  match op.rank with
  | 3 =>
      let t ← I.reduce .any "xytp" .and [op.named "xyz", monoid.named "ztp"]
      let t ← I.reduce .any "xtpq" .and [t.named "xytp", monoid.named "ytq"]
      I.reduce .all "pqr" .equ [t.named "xtpq", monoid.named "xtr"]
  | 4 =>
      let t ← I.reduce .any "atpcd" .and [op.named "abcd", monoid.named "btp"]
      let t ← I.reduce .any "atpqd" .and [t.named "atpcd", monoid.named "ctq"]
      let t ← I.reduce .any "atpqr" .and [t.named "atpqd", monoid.named "dtr"]
      I.reduce .all "pqrs" .equ [t.named "atpqr", monoid.named "ats"]
  | 0 => trap .overflow
  | rank + 1 => refuse (.stabilizerArity rank)

/-- Feeding the operation with maps, all applied to the same element, gives
exactly one of the maps. -/
def isStabilizer (op monoid : Tensor α) : Run σ α := do
  let n : Nat ← monoidSize monoid
  requireExtent .operation op op.rank n
  let matching ← composite I op monoid
  let member ← I.fold .one 1 matching
  let all ← I.fold .all member.rank member
  all.toScalar

end TensorLogic.Relation
