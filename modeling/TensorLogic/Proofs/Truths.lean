import TensorLogic.Interpreter.Truth
import TensorLogic.Proofs.Returns

/-!
# Contractions of truth values

What the contractions of a predicate say once they are run on truth values: the three
aggregators are the quantifiers `∃`, `∀` and `∃!` over the indices of a block
(`reduce_any_iff`, `reduce_all_iff`, `reduce_one_iff`). For `any` of `and`, and dually for
`all` of `or`, one truth value is looked for in every operand at once, so there a
contraction is an existential quantifier over assignments (`Quantifies.reduce_iff`).

On readable operands these contractions return as soon as the sizes allow it
(`reduce_truths_returns`), and folding a whole tensor does as soon as there is room for its
cells (`foldWhole_returns`).
-/

namespace TensorLogic

namespace Run

theorem lift_value {α : Type} (x : Run Unit α) : (liftM x.value : Run Unit α) = x := by
  funext s
  rw [Run.value]
  cases h : x s with
  | ok a s' => rfl
  | error fault s' => rfl

end Run

/-- A contraction of truth values computes with plain functions. -/
theorem reduce_lifted {agg : Aggregate} {op : Connective} {output : String}
    {operands : List (Labelled Bool)} {r : Tensor Bool}
    (h : (truthValues.reduce agg output op operands).value = .ok r) :
    reduce output operands
      (fun cells => ((truthValues.connect op cells).value : Except Fault Bool))
      (fun cells => ((truthValues.aggregate agg cells).value : Except Fault Bool)) () =
        .ok r () := by
  simp only [Run.lift_value]
  exact Run.value_eq_ok.mp h

/-- The quantifiers over their own connectives, with the truth value looked for. -/
inductive Quantifies : Aggregate → Connective → Bool → Prop where
  | any : Quantifies .any .and true
  | all : Quantifies .all .or false

/-- Two truth values that are compared with one and the same. -/
theorem eq_of_eq_iff {a b v : Bool} (h : a = v ↔ b = v) : a = b := by
  cases a <;> cases b <;> cases v <;> simp at h ⊢

namespace Quantifies

variable {agg : Aggregate} {op : Connective} {v : Bool} (hq : Quantifies agg op v)
include hq

/-- The connective gives the value if all of its arguments have it. -/
theorem connect_iff {cells : List Bool} (hne : cells ≠ []) :
    (truthValues.connect op cells).value = .ok v ↔ ∀ x ∈ cells, x = v := by
  cases cells with
  | nil => exact absurd rfl hne
  | cons x cells =>
      cases hq with
      | any =>
          show Except.ok ((x :: cells).all fun a => a) = Except.ok true ↔ _
          rw [Except.ok.injEq, List.all_eq_true]
      | all =>
          show Except.ok ((x :: cells).any fun a => a) = Except.ok false ↔ _
          rw [Except.ok.injEq, List.any_eq_false]
          simp

/-- The aggregator gives the value if some cell of the block has it. -/
theorem aggregate_iff {block : List Bool} {b : Bool}
    (h : (truthValues.aggregate agg block).value = .ok b) : b = v ↔ v ∈ block := by
  cases hq with
  | any =>
      have hb : (block.any fun a => a) = b := Except.ok.inj h
      rw [← hb, List.any_eq_true]
      simp
  | all =>
      have hb : (block.all fun a => a) = b := Except.ok.inj h
      rw [← hb, List.all_eq_false]
      simp

theorem combinedAt_iff {operands : List (Labelled Bool)} (hne : operands ≠ [])
    {π : Char → Nat} :
    Join.combinedAt operands (fun cells => (truthValues.connect op cells).value) π = .ok v ↔
      ∀ operand ∈ operands, operand.cellAt π = .ok v := by
  constructor
  · intro h operand hoperand
    obtain ⟨cells, hcells, hb⟩ := bind_eq_ok.mp h
    obtain ⟨hcomplete, -⟩ := exists_of_forall₂ (mapM_eq_ok.mp hcells)
    obtain ⟨x, hx, hcell⟩ := hcomplete operand hoperand
    rw [hcell, (hq.connect_iff (List.ne_nil_of_mem hx)).mp hb x hx]
  · intro h
    have hcells : operands.mapM (Labelled.cellAt π) = .ok (operands.map fun _ => v) := by
      rw [mapM_eq_ok, List.forall₂_map_right_iff, List.forall₂_same]
      exact h
    refine bind_eq_ok.mpr ⟨_, hcells, (hq.connect_iff ?_).mpr (by simp)⟩
    simpa using hne

/-- A contraction by a quantifier, whatever the connective: a cell has the value looked for
if the operands combine to it under some assignment that extends its index. -/
theorem reduce_combined_iff {combining : Connective} {output : String}
    {operands : List (Labelled Bool)} {r : Tensor Bool} {extent ρ : Char → Nat}
    (h : (truthValues.reduce agg output combining operands).value = .ok r)
    (hsized : Join.Sized extent operands) (hρ : Within extent output.toList ρ) :
    ∃ b, r.get (output.toList.map ρ) = .ok b ∧
      (b = v ↔ ∃ π, Join.Extends output operands extent ρ π ∧
        Join.combinedAt operands (fun cells => (truthValues.connect combining cells).value) π =
          .ok v) := by
  obtain ⟨block, b, hget, haggregate, hsound, hcomplete⟩ :=
    Join.reduce_assigned (reduce_lifted h) hsized hρ
  refine ⟨b, hget, ?_⟩
  rw [hq.aggregate_iff haggregate]
  constructor
  · intro hv
    exact hsound v hv
  · rintro ⟨π, hπ, hcombined⟩
    obtain ⟨x, hx, hcell⟩ := hcomplete π hπ
    exact Except.ok.inj (hcell.symm.trans hcombined) ▸ hx

/-- A contraction by a quantifier over its own connective: a cell has the value looked for
if some assignment that extends its index gives that value to all operands. -/
theorem reduce_iff {output : String} {operands : List (Labelled Bool)} {r : Tensor Bool}
    {extent ρ : Char → Nat}
    (h : (truthValues.reduce agg output op operands).value = .ok r)
    (hsized : Join.Sized extent operands) (hρ : Within extent output.toList ρ) :
    ∃ b, r.get (output.toList.map ρ) = .ok b ∧
      (b = v ↔ ∃ π, Join.Extends output operands extent ρ π ∧
        ∀ operand ∈ operands, operand.cellAt π = .ok v) := by
  have hne : operands ≠ [] := by
    rintro rfl
    cases h
  obtain ⟨b, hget, hb⟩ := hq.reduce_combined_iff h hsized hρ
  simp only [hq.combinedAt_iff hne] at hb
  exact ⟨b, hget, hb⟩

end Quantifies

section Reduce

variable {agg : Aggregate} {op : Connective} {output : String}
  {operands : List (Labelled Bool)} {r : Tensor Bool} {extent : Char → Nat}

/-- What one cell of a contraction aggregates. -/
theorem reduce_block (h : (truthValues.reduce agg output op operands).value = .ok r)
    (hsized : Join.Sized extent operands) {index : Index} (hindex : index ∈ r.shape.indices) :
    ∃ block b, r.get index = .ok b ∧ (truthValues.aggregate agg block).value = .ok b ∧
      (Shape.indices ((Join.foldedLabels output operands).map extent)).mapM (fun j =>
        Join.jointCell output operands (fun cells => (truthValues.connect op cells).value)
          (index ++ j)) = .ok block := by
  obtain ⟨b, hget, hcell⟩ := (Join.reduce_sized (reduce_lifted h) hsized).2 index hindex
  obtain ⟨block, hblock, haggregate, -⟩ := Join.contractedCell_ok hcell
  exact ⟨block, b, hget, haggregate, hblock⟩

theorem reduce_any_iff (h : (truthValues.reduce .any output op operands).value = .ok r)
    (hsized : Join.Sized extent operands) {index : Index} (hindex : index ∈ r.shape.indices) :
    ∃ b, r.get index = .ok b ∧
      (b = true ↔ ∃ j ∈ Shape.indices ((Join.foldedLabels output operands).map extent),
        Join.jointCell output operands (fun cells => (truthValues.connect op cells).value)
          (index ++ j) = .ok true) := by
  obtain ⟨block, b, hget, haggregate, hblock⟩ := reduce_block h hsized hindex
  obtain ⟨hcomplete, hsound⟩ := exists_of_forall₂ (mapM_eq_ok.mp hblock)
  have hb : (block.any fun a => a) = b := Except.ok.inj haggregate
  refine ⟨b, hget, ?_⟩
  rw [← hb, List.any_eq_true]
  constructor
  · rintro ⟨x, hx, rfl⟩
    exact hsound true hx
  · rintro ⟨j, hj, hcell⟩
    obtain ⟨x, hx, hjoint⟩ := hcomplete j hj
    exact ⟨x, hx, Except.ok.inj (hjoint.symm.trans hcell)⟩

theorem reduce_all_iff (h : (truthValues.reduce .all output op operands).value = .ok r)
    (hsized : Join.Sized extent operands) {index : Index} (hindex : index ∈ r.shape.indices) :
    ∃ b, r.get index = .ok b ∧
      (b = true ↔ ∀ j ∈ Shape.indices ((Join.foldedLabels output operands).map extent),
        Join.jointCell output operands (fun cells => (truthValues.connect op cells).value)
          (index ++ j) = .ok true) := by
  obtain ⟨block, b, hget, haggregate, hblock⟩ := reduce_block h hsized hindex
  obtain ⟨hcomplete, hsound⟩ := exists_of_forall₂ (mapM_eq_ok.mp hblock)
  have hb : (block.all fun a => a) = b := Except.ok.inj haggregate
  refine ⟨b, hget, ?_⟩
  rw [← hb, List.all_eq_true]
  constructor
  · intro hall j hj
    obtain ⟨x, hx, hjoint⟩ := hcomplete j hj
    rw [hjoint, hall x hx]
  · intro hall x hx
    obtain ⟨j, hj, hjoint⟩ := hsound x hx
    exact Except.ok.inj (hjoint.symm.trans (hall j hj))

theorem eq_singleton_iff {ι : Type} {l : List ι} (h : l.Nodup) {a : ι} :
    l = [a] ↔ ∀ c, c ∈ l ↔ c = a := by
  constructor
  · rintro rfl c
    exact List.mem_singleton
  · intro hmem
    refine List.perm_singleton.mp ((List.perm_ext_iff_of_nodup h (List.nodup_singleton a)).mpr ?_)
    intro c
    rw [hmem, List.mem_singleton]

/-- Among the results of a list without repetitions, one is true. -/
theorem count_true_eq_one {ι : Type} {l : List ι} (hnodup : l.Nodup)
    {f : ι → Except Fault Bool} {block : List Bool} (h : l.mapM f = .ok block) :
    block.count true = 1 ↔ ∃! a, a ∈ l ∧ f a = .ok true := by
  classical
  have hcount : block.count true = (l.filter fun a => decide (f a = .ok true)).length := by
    clear hnodup
    have hall := mapM_eq_ok.mp h
    clear h
    induction hall with
    | nil => rfl
    | @cons a b l block hab _ ih =>
        rw [List.count_cons, List.filter_cons, hab, ih]
        cases b <;> simp
  rw [hcount, List.length_eq_one_iff]
  simp only [eq_singleton_iff (hnodup.filter _), List.mem_filter, decide_eq_true_eq]
  constructor
  · rintro ⟨a, ha⟩
    exact ⟨a, (ha a).mpr rfl, fun c hc => (ha c).mp hc⟩
  · rintro ⟨a, ha, honly⟩
    exact ⟨a, fun c => ⟨fun hc => honly c hc, fun hc => hc ▸ ha⟩⟩

theorem reduce_one_iff (h : (truthValues.reduce .one output op operands).value = .ok r)
    (hsized : Join.Sized extent operands) {index : Index} (hindex : index ∈ r.shape.indices) :
    ∃ b, r.get index = .ok b ∧
      (b = true ↔ ∃! j, j ∈ Shape.indices ((Join.foldedLabels output operands).map extent) ∧
        Join.jointCell output operands (fun cells => (truthValues.connect op cells).value)
          (index ++ j) = .ok true) := by
  obtain ⟨block, b, hget, haggregate, hblock⟩ := reduce_block h hsized hindex
  have hb : (block.count true == 1) = b := Except.ok.inj haggregate
  refine ⟨b, hget, ?_⟩
  rw [← hb, beq_iff_eq, count_true_eq_one (Shape.nodup_indices _) hblock]

theorem aggregate_returns (agg : Aggregate) (block : List Bool) :
    ∃ b, (truthValues.aggregate agg block).value = .ok b := by
  cases agg <;> exact ⟨_, rfl⟩

theorem connect_returns {cells : List Bool} (h : op.accepts cells.length) :
    ∃ b, (truthValues.connect op cells).value = .ok b := by
  match op, cells, h with
  | .id, [a], _ => exact ⟨_, rfl⟩
  | .not, [a], _ => exact ⟨_, rfl⟩
  | .and, a :: rest, _ => exact ⟨_, rfl⟩
  | .or, a :: rest, _ => exact ⟨_, rfl⟩
  | .imp, [a, b], _ => exact ⟨_, rfl⟩
  | .equ, [a, b], _ => exact ⟨_, rfl⟩
  | .leq, [a, b], _ => exact ⟨_, rfl⟩

theorem reduce_truths_returns (h : Join.Fits output operands extent)
    (hread : ∀ operand ∈ operands, operand.tensor.Readable)
    (hjoint : Shape.Fillable ((Join.jointLabels output operands).map extent) Bool)
    (hblock : Shape.Blockable ((Join.foldedLabels output operands).map extent) Bool)
    (houter : Shape.Fillable (output.toList.map extent) Bool)
    (hop : op.accepts operands.length) :
    ∃ r, (truthValues.reduce agg output op operands).value = .ok r := by
  obtain ⟨r, hr⟩ := Join.reduce_returns (s := ()) h hread hjoint hblock houter
    (fun cells hcells => connect_returns (hcells ▸ hop)) (aggregate_returns agg)
  simp only [Run.lift_value] at hr
  exact ⟨r, Run.value_eq_ok.mpr hr⟩

end Reduce

section Whole

variable {t r : Tensor Bool} (ht : t.InBounds) {agg : Aggregate}
include ht

/-- Folding all axes aggregates all cells, in row-major order, whatever room they take. -/
theorem foldWhole_ok [Cell Bool] (h : (truthValues.fold agg t.rank t).value = .ok r) :
    ∃ block b, r.toScalar = .ok b ∧ t.shape.indices.mapM t.get = .ok block ∧
      (truthValues.aggregate agg block).value = .ok b := by
  have hinner : t.innerShape t.rank = t.shape := by
    rw [Tensor.innerShape, Nat.sub_self, List.drop_zero]
  have houter : t.outerShape t.rank = [] := by
    rw [Tensor.outerShape, Nat.sub_self, List.take_zero]
  obtain ⟨-, hfill⟩ := Tensor.fold_ok ht (Run.value_eq_ok.mp h)
  obtain ⟨hshape, -, hget⟩ := Tensor.fill_spec hfill
  rw [houter] at hshape hget
  obtain ⟨b, hb, s, s', hcell⟩ := hget [] (by simp [Shape.indices])
  obtain ⟨block, hblock, haggregate⟩ := Run.lift_bind_eq_ok.mp hcell
  rw [Tensor.blockCells, hinner] at hblock
  refine ⟨block, b, ?_, hblock, Run.value_eq_ok.mpr haggregate⟩
  rw [Tensor.toScalar, Tensor.rank, hshape]
  exact hb

theorem foldWhole_returns [Cell Bool] (hone : Shape.Fillable [] Bool)
    (hblock : t.shape.Blockable Bool) (agg : Aggregate) :
    ∃ r, (truthValues.fold agg t.rank t).value = .ok r := by
  have hinner : (t.innerShape t.rank).Blockable Bool := by
    rwa [Tensor.innerShape, Nat.sub_self, List.drop_zero]
  have houter : (t.outerShape t.rank).Fillable Bool := by
    rwa [Tensor.outerShape, Nat.sub_self, List.take_zero]
  obtain ⟨r, hr⟩ :=
    Tensor.fold_returns (s := ()) ht (Nat.le_refl _) hinner houter (aggregate_returns agg)
  simp only [Run.lift_value] at hr
  exact ⟨r, Run.value_eq_ok.mpr hr⟩

/-- Folding all axes by `all` gives whether every cell is true. -/
theorem foldAll_ok (h : (truthValues.fold .all t.rank t).value = .ok r) :
    ∃ b, r.toScalar = .ok b ∧
      (b = true ↔ ∀ index ∈ t.shape.indices, t.get index = .ok true) := by
  obtain ⟨block, b, hb, hblock, haggregate⟩ := foldWhole_ok ht h
  obtain ⟨hcomplete, hsound⟩ := exists_of_forall₂ (mapM_eq_ok.mp hblock)
  have hall : (block.all fun a => a) = b := Except.ok.inj haggregate
  refine ⟨b, hb, ?_⟩
  rw [← hall, List.all_eq_true]
  constructor
  · intro h index hindex
    obtain ⟨x, hx, hcell⟩ := hcomplete index hindex
    exact (h x hx) ▸ hcell
  · intro h x hx
    obtain ⟨index, hindex, hcell⟩ := hsound x hx
    exact Except.ok.inj (hcell.symm.trans (h index hindex))

/-- Folding all axes by `all`, down to a truth value. -/
theorem foldedAll_iff {axes : Nat} {b : Bool} (haxes : axes = t.rank)
    (h : (do
      let all ← truthValues.fold .all axes t
      all.toScalar : Run Unit Bool).value = .ok b) :
    b = true ↔ ∀ index ∈ t.shape.indices, t.get index = .ok true := by
  obtain ⟨all, s, hfold, hscalar⟩ := Run.bind_eq_ok.mp (Run.value_eq_ok.mp h)
  obtain ⟨b', hb', hiff⟩ := foldAll_ok ht (Run.value_eq_ok.mpr (haxes ▸ hfold))
  obtain rfl : b' = b := Except.ok.inj (hb'.symm.trans (Run.lift_eq_ok.mp hscalar).1)
  exact hiff

end Whole

end TensorLogic
