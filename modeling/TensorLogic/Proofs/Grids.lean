import TensorLogic.Problem.Ready
import TensorLogic.Proofs.Enumeration
import TensorLogic.Proofs.Outcomes
import TensorLogic.Proofs.Truths

/-!
# Grids with one true cell

The solutions of `exactlyOne` are the lists of cells with one true entry among them, and
there is one such list for each place (`oneHot`). An enumeration delivers each solution
once, so it delivers as many as there are cells, and for each cell the one that makes it
true (`exactlyOne_models`). Nothing in that asks how many cells there are: with none there
is no place and no solution, and with one there is nothing for a gate to compare.

That the clauses count right is not looked at here. It is part of what links literals with
truth values, under which the formula counts by itself (`check_grid`).
-/

namespace TensorLogic

open Faithful

/-! ## Lists with one true entry -/

/-- The list of `n` truth values of which entry `k` is true. -/
def oneHot (n k : Nat) : List Bool :=
  (List.range n).map fun i => decide (i = k)

theorem length_oneHot (n k : Nat) : (oneHot n k).length = n := by
  rw [oneHot, List.length_map, List.length_range]

theorem getElem_oneHot {n k i : Nat} (h : i < (oneHot n k).length) :
    (oneHot n k)[i] = decide (i = k) := by
  simp only [oneHot, List.getElem_map, List.getElem_range]

theorem oneHot_injective {n k k' : Nat} (hk : k < n) (h : oneHot n k = oneHot n k') : k = k' := by
  have hlen : k < (oneHot n k).length := by rwa [length_oneHot]
  have hentry := getElem_oneHot hlen
  simp only [h, getElem_oneHot] at hentry
  simpa using hentry

/-- A list with one true entry is known by its place. -/
theorem count_true_eq_one_iff {cells : List Bool} {n : Nat} (hlen : cells.length = n) :
    cells.count true = 1 ↔ ∃ k < n, cells = oneHot n k := by
  have hread : (List.range n).mapM (fun i => (.ok (cells.getD i false) : Except Fault Bool)) =
      .ok cells := by
    refine mapM_eq_ok.mpr (List.forall₂_iff_get.mpr ⟨by simp [hlen], fun i hi hi' => ?_⟩)
    simp [hi']
  rw [count_true_eq_one List.nodup_range hread]
  simp only [List.mem_range, Except.ok.injEq]
  constructor
  · rintro ⟨k, ⟨hk, htrue⟩, honly⟩
    refine ⟨k, hk, List.ext_getElem (by rw [hlen, length_oneHot]) fun i hi hi' => ?_⟩
    rw [getElem_oneHot, Bool.eq_iff_iff, decide_eq_true_eq]
    constructor
    · intro h
      exact honly i ⟨hlen ▸ hi, by rwa [List.getD_eq_getElem _ _ hi]⟩
    · rintro rfl
      rwa [List.getD_eq_getElem _ _ hi] at htrue
  · rintro ⟨k, hk, rfl⟩
    have hentry : ∀ i < n, ((oneHot n k).getD i false = true ↔ i = k) := by
      intro i hi
      have hi' : i < (oneHot n k).length := by rwa [length_oneHot]
      rw [List.getD_eq_getElem _ _ hi', getElem_oneHot, decide_eq_true_eq]
    exact ⟨k, ⟨hk, (hentry k hk).mpr rfl⟩, fun i hi => (hentry i hi.1).mp hi.2⟩

/-! ## The problem -/

variable {shape : Shape} {p : Problem}

/-- The problem of the grid: one variable, and one formula over it. -/
theorem exactlyOne_ok (h : exactlyOne shape = .ok p) :
    p.shapes.entries = [(gridVariable, shape)] ∧
      p.formula = .fold .one none (.var gridVariable) :=
  Problem.declare_single h

/-- There are no more literals than numbers for them, so the cells of a grid can be gathered
into a block. -/
theorem blockable_of_literals {α : Type} [Cell α] (hrange : shape.cells < Nat.pow 2 31)
    (hwidth : Cell.width α ≤ 8) : shape.Blockable α := by
  have hbytes : shape.cells * Cell.width α ≤ shape.cells * 8 := Nat.mul_le_mul_left _ hwidth
  have hlarge : 16 * Nat.pow 2 31 < Nat.pow 2 63 := by decide
  refine .of_lt ?_ ?_
  · show 2 * shape.cells * 8 < _
    omega
  · omega

/-- Among truth values the formula counts, if there is room for them. -/
theorem compute_grid [Cell Bool] (hone : Shape.Fillable [] Bool) {env : Bindings Bool}
    {t : Tensor Bool} (hfind : env.find? gridVariable = some t) (ht : t.InBounds)
    (hblock : t.shape.Blockable Bool) :
    ∃ cells, t.shape.indices.mapM t.get = .ok cells ∧
      Run.value (Formula.compute truthValues env (.fold .one none (.var gridVariable))) =
        .ok (cells.count true == 1) := by
  obtain ⟨r, hfold⟩ := foldWhole_returns ht hone hblock .one
  obtain ⟨cells, b, hb, hcells, haggregate⟩ := foldWhole_ok ht hfold
  have hcount : (cells.count true == 1) = b := Except.ok.inj haggregate
  refine ⟨cells, hcells, Run.value_eq_ok.mpr ?_⟩
  have hvar : (Formula.var gridVariable).eval truthValues env () = .ok t () := by
    simp only [Formula.eval, Bindings.get, hfind]
    rfl
  refine Run.bind_eq_ok.mpr ⟨r, (), ?_, Run.lift_eq_ok.mpr ⟨hcount ▸ hb, rfl⟩⟩
  rw [Formula.eval]
  exact Run.bind_eq_ok.mpr ⟨t, (), hvar, Run.value_eq_ok.mp hfold⟩

/-- The solution makes the cell of the grid true. -/
def TrueAt (b : Solution) (index : Index) : Prop :=
  ∃ grid, b.find? gridVariable = some grid ∧ grid.get index = .ok true

theorem trueAt_iff {b : Solution} {k j : Nat} (hj : j < shape.indices.length)
    (h : Bindings.Listed [(gridVariable, shape)] b.entries (oneHot shape.cells k)) :
    TrueAt b shape.indices[j] ↔ j = k := by
  obtain ⟨t, hfind, ht⟩ := h.find?_single
  obtain ⟨hj', hget⟩ := ht.get_eq hj
  rw [getElem_oneHot] at hget
  simp only [TrueAt, hfind, Option.some.injEq, exists_eq_left']
  rw [hget]
  simp

section

variable (hshapes : p.shapes.entries = [(gridVariable, shape)])
  (hformula : p.formula = .fold .one none (.var gridVariable))
  (hrange : shape.cells < Nat.pow 2 31)

include hshapes hformula hrange

theorem check_grid {b : Solution} {cells : List Bool}
    (h : Bindings.Listed p.shapes.entries b.entries cells) :
    p.check b = .ok (cells.count true == 1) := by
  rw [Problem.check_eq h, hformula]
  rw [hshapes] at h
  obtain ⟨t, hfind, ht⟩ := h.find?_single
  have hblock : t.shape.Blockable Bool :=
    ht.shape_eq ▸ blockable_of_literals hrange (by decide)
  obtain ⟨cells', hcells, hcompute⟩ := compute_grid (by decide) hfind ht.bounds hblock
  have hsame : cells' = cells := by
    rw [ht.shape_eq, mapM_eq_ok.mpr ht.reads] at hcells
    exact (Except.ok.inj hcells).symm
  rw [hcompute, hsame]

/-- The formula has a value on any grid of the shape, in cells as wide as literals. -/
theorem compute_returns {env : Solution} (henv : env.Fit p.shapes) :
    ∃ value, p.formula.valueAt (Cell.width Literal) env = .ok value := by
  obtain ⟨cells, hcells⟩ := Bindings.Listed.exists_of_fit henv
  rw [hshapes] at hcells
  obtain ⟨t, hfind, ht⟩ := hcells.find?_single
  let : Cell Bool := ⟨Cell.width Literal⟩
  have hblock : t.shape.Blockable Bool :=
    ht.shape_eq ▸ blockable_of_literals hrange (by decide)
  obtain ⟨_, -, hcompute⟩ := compute_grid (by decide) hfind ht.bounds hblock
  rw [Formula.valueAt, hformula]
  exact ⟨_, hcompute⟩

variable {literals : Bindings Literal} {F : Cnf} {sols : List Solution} {all : List (List Bool)}

/-- The solutions have one true cell each, and each cell is the one of some solution. -/
theorem AllSolutions.mem_iff_oneHot (hc : Compiled p literals F) (h : AllSolutions p F sols all)
    {cells : List Bool} : cells ∈ all ↔ ∃ k < shape.cells, cells = oneHot shape.cells k := by
  have hdeclared : p.declaredCells = shape.cells := by
    rw [Problem.declaredCells, hshapes, cellsOf, cellsOf, Nat.add_zero]
  have hcount : cells.length = shape.cells → (cells ∈ all ↔ cells.count true = 1) := by
    intro hlen
    have hstorable := (hc.fillable (gridVariable, shape) (by simp [hshapes])).storable
    obtain ⟨t, ht⟩ := Tensor.dense_of_storable hstorable cells.toArray
    have hlists := Tensor.dense_lists ht (by simpa using hlen)
    have hlisted : Bindings.Listed p.shapes.entries
        (⟨[(gridVariable, t)], List.pairwise_singleton _ _⟩ : Solution).entries cells := by
      rw [hshapes]
      exact .single hlists
    rw [h.exact, ← hc.check_iff hlisted, check_grid hshapes hformula hrange hlisted]
    simp
  constructor
  · intro hall
    have hlen : cells.length = shape.cells := by
      obtain ⟨a, -, rfl⟩ := (h.exact cells).mp hall
      rw [a.length_front, hdeclared]
    exact (count_true_eq_one_iff hlen).mp ((hcount hlen).mp hall)
  · rintro ⟨k, hk, rfl⟩
    have hlen := length_oneHot shape.cells k
    exact (hcount hlen).mpr ((count_true_eq_one_iff hlen).mpr ⟨k, hk, rfl⟩)

/-- There are as many solutions as cells. -/
theorem AllSolutions.length_eq_cells (hc : Compiled p literals F)
    (h : AllSolutions p F sols all) : all.length = shape.cells := by
  have hnodup : ((List.range shape.cells).map (oneHot shape.cells)).Nodup := by
    refine List.Nodup.map_on (fun k hk k' _ => oneHot_injective ?_) List.nodup_range
    exact List.mem_range.mp hk
  have hperm : all.Perm ((List.range shape.cells).map (oneHot shape.cells)) := by
    refine (List.perm_ext_iff_of_nodup h.nodup hnodup).mpr fun cells => ?_
    simp only [h.mem_iff_oneHot hshapes hformula hrange hc, List.mem_map, List.mem_range, eq_comm]
  rw [hperm.length_eq, List.length_map, List.length_range]

/-- The place of the true cell of a solution. -/
theorem AllSolutions.exists_place (hc : Compiled p literals F) (h : AllSolutions p F sols all)
    {k : Nat} (hk : k < sols.length) (hk' : k < all.length) :
    ∃ place < shape.cells, all[k] = oneHot shape.cells place ∧
      ∀ j (hj : j < shape.indices.length), TrueAt sols[k] shape.indices[j] ↔ j = place := by
  have hlisted := (List.forall₂_iff_get.mp h.listed).2 k hk hk'
  obtain ⟨place, hplace, hcells⟩ :=
    (h.mem_iff_oneHot hshapes hformula hrange hc).mp (List.getElem_mem hk')
  rw [hshapes, List.get_eq_getElem, List.get_eq_getElem, hcells] at hlisted
  exact ⟨place, hplace, hcells, fun j hj => trueAt_iff hj hlisted⟩

end

/-- If a session has the literals for the cells and for the gates behind them (they are numbers
of 32 bits, so there can be no more), solving for all grids with exactly one true cell returns
as many as there are cells. Each has one true cell, and each cell is true in one of them. -/
theorem exactlyOne_models {σ : Type} [Session σ] [CompleteSession σ] {s s₀ : σ}
    {literals : Bindings Literal} (hp : exactlyOne shape = .ok p)
    (hallocate : p.allocate (Session.clear s) = .ok literals s₀)
    (hliterals : ∀ n s', p.compile s ≠ .error (.trapped (.literalRange n)) s')
    (hrange : shape.cells < Nat.pow 2 31) :
    ∃ sols s', p.solveAll s = .ok sols s' ∧ sols.size = shape.cells ∧
      (∀ b ∈ sols, b.Fit p.shapes ∧ ∃! index, index ∈ shape.indices ∧ TrueAt b index) ∧
      (∀ index ∈ shape.indices, ∃! k : Fin sols.size, TrueAt sols[k] index) ∧
      (0 ∈ shape → sols = #[]) := by
  obtain ⟨hshapes, hformula⟩ := exactlyOne_ok hp
  have hlinear : p.formula.linear := by rw [hformula]; decide
  obtain ⟨s₁, hcompile⟩ := (compile_returns hlinear hallocate fun env henv =>
    compute_returns hshapes hformula hrange henv).resolve_right fun ⟨n, s', h⟩ => hliterals n s' h
  obtain ⟨sols, all, s', hrun, hc, hall⟩ := solveAll_spec hlinear hcompile
  have hsame : sols.length = all.length := hall.listed.length_eq
  have hsize : sols.length = shape.cells :=
    hsame.trans (hall.length_eq_cells hshapes hformula hrange hc)
  refine ⟨sols.toArray, s', hrun, hsize, fun b hb => ?_, fun index hindex => ?_, fun hzero => ?_⟩
  · obtain ⟨k, hk, rfl⟩ := List.getElem_of_mem (List.mem_toArray.mp hb)
    obtain ⟨place, hplace, -, htrue⟩ := hall.exists_place hshapes hformula hrange hc hk (hsame ▸ hk)
    rw [← Shape.length_indices] at hplace
    refine ⟨hall.fit (List.getElem_mem hk), shape.indices[place],
      ⟨List.getElem_mem hplace, (htrue place hplace).mpr rfl⟩, ?_⟩
    rintro index ⟨hindex, hother⟩
    obtain ⟨j, hj, rfl⟩ := List.getElem_of_mem hindex
    obtain rfl := (htrue j hj).mp hother
    rfl
  · obtain ⟨j, hj, rfl⟩ := List.getElem_of_mem hindex
    have hcells : j < shape.cells := Shape.length_indices shape ▸ hj
    have hmem : oneHot shape.cells j ∈ all :=
      (hall.mem_iff_oneHot hshapes hformula hrange hc).mpr ⟨j, hcells, rfl⟩
    obtain ⟨i, hi', hi⟩ := List.getElem_of_mem hmem
    have hlt : i < sols.length := hsame ▸ hi'
    obtain ⟨place, -, hplace, htrue⟩ := hall.exists_place hshapes hformula hrange hc hlt hi'
    obtain rfl := oneHot_injective hcells (hi.symm.trans hplace)
    refine ⟨⟨i, hlt⟩, (htrue j hj).mpr rfl, fun k hk => ?_⟩
    have hk' : k.val < all.length := hsame ▸ k.isLt
    obtain ⟨other, -, hother, honly⟩ := hall.exists_place hshapes hformula hrange hc k.isLt hk'
    obtain rfl := (honly j hj).mp hk
    exact Fin.ext (hall.nodup.getElem_inj_iff.mp (hother.trans hi.symm))
  · rw [Shape.cells_eq_zero_iff.mpr hzero] at hsize
    rw [List.length_eq_zero_iff.mp hsize]

/-- The grids of two rows and two columns with exactly one true cell. -/
def square : Problem where
  shapes := { entries := [(gridVariable, [2, 2])], ordered := List.pairwise_singleton _ _ }
  formula := .fold .one none (.var gridVariable)

theorem square_allocate : ∃ literals s₀,
    square.allocate (Session.clear ({} : ExhaustiveSession)) = .ok literals s₀ :=
  Run.exists_of_returns (by decide +kernel)

theorem square_compile : ∃ literals s', square.compile ({} : ExhaustiveSession) =
    .ok literals s' :=
  Run.exists_of_returns (by decide +kernel)

theorem exactlyOne_models_square :
    exactlyOne [2, 2] = .ok square ∧
      ∃ sols s', square.solveAll ({} : ExhaustiveSession) = .ok sols s' ∧ sols.size = 4 ∧
        (∀ b ∈ sols, ∃! index, index ∈ Shape.indices [2, 2] ∧ TrueAt b index) ∧
        ∃! k : Fin sols.size, TrueAt sols[k] [1, 0] := by
  have hproblem : exactlyOne [2, 2] = .ok square := rfl
  obtain ⟨literals, s₀, hallocate⟩ := square_allocate
  obtain ⟨compiled, s₁, hcompile⟩ := square_compile
  obtain ⟨sols, s', hsolve, hsize, hone, hplace, -⟩ :=
    exactlyOne_models hproblem hallocate (fun n s' h => nomatch hcompile.symm.trans h) (by decide)
  exact ⟨hproblem, sols, s', hsolve, hsize, fun b hb => (hone b hb).2, hplace [1, 0] (by decide)⟩

end TensorLogic
