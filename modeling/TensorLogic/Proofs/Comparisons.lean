import TensorLogic.Proofs.Truths

/-!
# Comparisons of truth values

Where a predicate compares two tensors it does so by one of two connectives, and each says
one thing of the cells that hold: by `leq` that they hold on the right as well, by `equ`
that they hold on both sides or on neither (`Compares`). Two tensors are compared inside
a contraction by `all`, under every assignment that extends the index of a cell
(`Compares.reduce_iff`), or cell by cell and then folded (`Compares.folded_iff`).

A contraction of a single operand has nothing to combine, so each of its cells aggregates
the cells of the operand as they are (`reduce_single`).
-/

namespace TensorLogic

variable {agg : Aggregate} {op : Connective} {output : String} {extent ρ : Char → Nat}
  {r t u : Tensor Bool} {axes : Nat} {b : Bool}

/-! ## Two operands -/

/-- What a comparison of two truth values says of them. -/
inductive Compares : Connective → (Prop → Prop → Prop) → Prop where
  | leq : Compares .leq fun p q => p → q
  | equ : Compares .equ Iff

namespace Compares

variable {R : Prop → Prop → Prop} (hR : Compares op R)
include hR

theorem connect_iff {x y z : Bool} (h : (truthValues.connect op [x, y]).value = .ok z) :
    z = true ↔ R (x = true) (y = true) := by
  cases hR with
  | leq =>
      have hz : (!x || y) = z := Except.ok.inj h
      rw [← hz]
      cases x <;> cases y <;> simp
  | equ =>
      have hz : (x == y) = z := Except.ok.inj h
      rw [← hz]
      cases x <;> cases y <;> simp

theorem combinedAt_iff {left right : Labelled Bool} {π : Char → Nat} {z : Bool}
    (h : Join.combinedAt [left, right] (fun cells => (truthValues.connect op cells).value) π =
      .ok z) :
    z = true ↔ R (left.cellAt π = .ok true) (right.cellAt π = .ok true) := by
  obtain ⟨cells, hcells, hz⟩ := bind_eq_ok.mp h
  obtain _ | ⟨hx, _ | ⟨hy, _ | _⟩⟩ := mapM_eq_ok.mp hcells
  rw [hR.connect_iff hz, hx, hy, Except.ok.injEq, Except.ok.injEq]

/-- A contraction by `all` compares its operands under every assignment. -/
theorem reduce_iff {left right : Labelled Bool}
    (h : (truthValues.reduce .all output op [left, right]).value = .ok r)
    (hsized : Join.Sized extent [left, right]) (hρ : Within extent output.toList ρ) :
    ∃ z, r.get (output.toList.map ρ) = .ok z ∧
      (z = true ↔ ∀ π, Join.Extends output [left, right] extent ρ π →
        R (left.cellAt π = .ok true) (right.cellAt π = .ok true)) := by
  obtain ⟨block, z, hget, haggregate, hsound, hcomplete⟩ :=
    Join.reduce_assigned (reduce_lifted h) hsized hρ
  have hz : (block.all fun x => x) = z := Except.ok.inj haggregate
  refine ⟨z, hget, ?_⟩
  rw [← hz, List.all_eq_true]
  constructor
  · intro hblock π hπ
    obtain ⟨x, hx, hcell⟩ := hcomplete π hπ
    exact (hR.combinedAt_iff hcell).mp (hblock x hx)
  · intro hcells x hx
    obtain ⟨π, hπ, hcell⟩ := hsound x hx
    exact (hR.combinedAt_iff hcell).mpr (hcells π hπ)

/-- Two tensors compared cell by cell, down to a truth value. -/
theorem folded_iff (haxes : axes = t.rank)
    (h : (do
      let compared ← truthValues.map2 op t u
      let all ← truthValues.fold .all axes compared
      all.toScalar : Run Unit Bool).value = .ok b) :
    t.shape = u.shape ∧
      (b = true ↔ ∀ index ∈ t.shape.indices,
        R (t.get index = .ok true) (u.get index = .ok true)) := by
  obtain ⟨compared, s, hmap, hfold⟩ := Run.bind_eq_ok.mp (Run.value_eq_ok.mp h)
  obtain ⟨hsame, hfill⟩ := Tensor.map2_ok hmap
  obtain ⟨hshape, hbounds, hget⟩ := Tensor.fill_spec hfill
  have hrank : axes = compared.rank := by rw [haxes, Tensor.rank, Tensor.rank, hshape]
  refine ⟨hsame, ?_⟩
  rw [foldedAll_iff hbounds hrank (Run.value_eq_ok.mpr hfold), hshape]
  refine forall₂_congr fun index hindex => ?_
  obtain ⟨z, hz, s₁, s₂, hcell⟩ := hget index hindex
  obtain ⟨x, hx, hcell⟩ := Run.lift_bind_eq_ok.mp hcell
  obtain ⟨y, hy, hcell⟩ := Run.lift_bind_eq_ok.mp hcell
  rw [hz, hx, hy, Except.ok.injEq, Except.ok.injEq, Except.ok.injEq]
  exact hR.connect_iff (Run.value_eq_ok.mpr hcell)

end Compares

/-! ## One operand -/

theorem Join.combinedAt_single (operand : Labelled Bool) (π : Char → Nat) :
    combinedAt [operand] (fun cells => (truthValues.connect .id cells).value) π =
      operand.cellAt π := by
  rw [combinedAt, List.mapM_cons, List.mapM_nil]
  cases operand.cellAt π <;> rfl

/-- A contraction of one operand aggregates the cells that extend the index of a cell. -/
theorem reduce_single {operand : Labelled Bool}
    (h : (truthValues.reduce agg output .id [operand]).value = .ok r)
    (hsized : Join.Sized extent [operand]) (hρ : Within extent output.toList ρ) :
    ∃ block b, r.get (output.toList.map ρ) = .ok b ∧
      (truthValues.aggregate agg block).value = .ok b ∧
      (∀ x ∈ block, ∃ π, Join.Extends output [operand] extent ρ π ∧ operand.cellAt π = .ok x) ∧
      ∀ π, Join.Extends output [operand] extent ρ π → ∃ x ∈ block, operand.cellAt π = .ok x := by
  have hblock := Join.reduce_assigned (reduce_lifted h) hsized hρ
  simp only [Join.combinedAt_single] at hblock
  exact hblock

end TensorLogic
