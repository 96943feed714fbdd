import TensorLogic.Proofs.Cells
import TensorLogic.Proofs.Labels

/-!
# Joins and contractions, cell by cell

The reference contraction reads every operand at the coordinates its own labels
take from a joint index, hands the cells over in operand order, and collects the
results over all assignments of the folded labels in row-major order. Main
statement: that is what `join` and `reduce` compute, for any labelling they
accept (`contraction_spec`).

Three layers meet here. `Labels.lean` says how the joint axes are laid out,
`join_eq` replaces the table of slots by a search for labels, and `fold_eq`
turns the strided fold of the trailing axes into reads at appended indices.
-/

namespace TensorLogic

variable {α β σ : Type}

/-- The cell of an operand at a joint index whose axes carry `labels`: each axis
of the operand takes the coordinate of its label. -/
def Labelled.read (labels : List Char) (index : Index) (operand : Labelled α) :
    Except Fault α :=
  operand.tensor.get (operand.letters.map fun c => index.getD (labels.idxOf c) 0)

namespace Join

/-- The cells of all operands at a joint index, by label and in operand order. -/
def readAll (output : String) (operands : List (Labelled α)) (index : Index) :
    Except Fault (List α) :=
  operands.mapM (Labelled.read (jointLabels output operands) index)

/-- One cell of the reference join. -/
def jointCell (output : String) (operands : List (Labelled α))
    (combine : List α → Except Fault β) (index : Index) : Except Fault β := do
  combine (← readAll output operands index)

theorem operandCells_eq {output : String} {operands : List (Labelled α)}
    {joint : List JointAxis} (h : joint.map (·.label) = jointLabels output operands)
    (index : Index) :
    operandCells index.toArray
        (operands.map fun operand => (operand.tensor, slots joint operand.labels)) =
      readAll output operands index := by
  rw [operandCells, readAll, List.mapM_map]
  refine congrArg (operands.mapM ·) (funext fun operand => ?_)
  rw [Function.comp_apply, operandCell, Labelled.read, slots, List.map_map]
  refine congrArg operand.tensor.get (List.map_congr_left fun c _ => ?_)
  rw [← h, List.idxOf, List.findIdx_map]
  simp [Function.comp_def]

theorem join_eq [Cell β] (output : String) (operands : List (Labelled α))
    (combine : List α → Run σ β) :
    join output operands combine = (do
      let axes : List JointAxis × List JointAxis ← jointAxes output operands
      let shape : Shape := (axes.1 ++ axes.2).map (·.extent)
      let _ : Nat ← Size.checked shape
      let tensor ← Tensor.generate shape fun index => do
        let cells : List α ← readAll output operands index
        combine cells
      return { tensor, labels := String.ofList ((axes.1 ++ axes.2).map (·.label)),
               folded := axes.2.length }) := by
  unfold join
  cases haxes : jointAxes output operands with
  | error fault => rfl
  | ok axes =>
      obtain ⟨kept, folded⟩ := axes
      obtain ⟨hkept, hfolded, -⟩ := jointAxes_spec haxes
      have hlabels : (kept ++ folded).map (·.label) = jointLabels output operands := by
        rw [List.map_append, hkept, hfolded, jointLabels]
      show (do
        let _ : Nat ← Size.checked ((kept ++ folded).map (·.extent))
        let tensor ← Tensor.generate ((kept ++ folded).map (·.extent)) fun index => do
          let cells : List α ← operandCells index.toArray (operands.map fun operand =>
            (operand.tensor, slots (kept ++ folded) operand.labels))
          combine cells
        return { tensor, labels := String.ofList ((kept ++ folded).map (·.label)),
                 folded := folded.length } : Run σ (Joined β)) = _
      simp only [operandCells_eq hlabels]
      rfl

/-- What a join lays out, and what it computes for each cell. -/
theorem join_ok [Cell β] {output : String} {operands : List (Labelled α)}
    {combine : List α → Run σ β} {joined : Joined β} {s s' : σ}
    (h : join output operands combine s = .ok joined s') :
    joined.labels.toList = jointLabels output operands ∧
      joined.folded = (foldedLabels output operands).length ∧
      ∃ extent : Char → Nat,
        (∀ operand ∈ operands, operand.tensor.shape = operand.letters.map extent) ∧
        Tensor.fill ((jointLabels output operands).map extent) (fun index => do
          let cells : List α ← readAll output operands index
          combine cells) s = .ok joined.tensor s' := by
  rw [join_eq] at h
  obtain ⟨⟨kept, folded⟩, haxes, hsized⟩ := Run.lift_bind_eq_ok.mp h
  obtain ⟨size, -, hgenerated⟩ := Run.lift_bind_eq_ok.mp hsized
  obtain ⟨tensor, s₁, htensor, hpure⟩ := Run.bind_eq_ok.mp hgenerated
  cases hpure
  obtain ⟨hkept, hfolded, extent, hshapes, hkeptExtent, hfoldedExtent⟩ :=
    jointAxes_spec haxes
  refine ⟨?_, ?_, extent, hshapes, ?_⟩
  · simp only [String.toList_ofList, List.map_append, hkept, hfolded, jointLabels]
  · rw [← hfolded, List.length_map]
  · have hshape : (kept ++ folded).map (·.extent) =
        (jointLabels output operands).map extent := by
      rw [List.map_append, hkeptExtent, hfoldedExtent, jointLabels, List.map_append]
    rw [← hshape]
    exact Tensor.generate_ok htensor

end Join

/-! ## The reference contraction -/

namespace Join

variable {output : String} {operands : List (Labelled α)}
  {combine : List α → Except Fault β} {aggregate : List β → Except Fault β}

/-- One cell of the reference contraction: the aggregate of the joint cells over
all assignments of the folded labels. -/
def contractedCell (output : String) (operands : List (Labelled α)) (extent : Char → Nat)
    (combine : List α → Except Fault β) (aggregate : List β → Except Fault β)
    (index : Index) : Except Fault β := do
  aggregate (← (Shape.indices ((foldedLabels output operands).map extent)).mapM fun j =>
    jointCell output operands combine (index ++ j))

theorem join_cells [Cell β] {joined : Joined β} {s s' : σ}
    (h : join output operands (fun cells => (combine cells : Except Fault β)) s =
      .ok joined s') :
    joined.labels.toList = jointLabels output operands ∧
      joined.folded = (foldedLabels output operands).length ∧
      joined.tensor.InBounds ∧
      ∃ extent : Char → Nat,
        (∀ operand ∈ operands, operand.tensor.shape = operand.letters.map extent) ∧
        joined.tensor.shape = (jointLabels output operands).map extent ∧
        ∀ index ∈ joined.tensor.shape.indices,
          ∃ b, joined.tensor.get index = .ok b ∧
            jointCell output operands combine index = .ok b := by
  obtain ⟨hlabels, hfolded, extent, hshapes, hfill⟩ := join_ok h
  obtain ⟨hshape, hbounds, hget⟩ := Tensor.fill_spec hfill
  refine ⟨hlabels, hfolded, hbounds, extent, hshapes, hshape, fun index hindex => ?_⟩
  rw [hshape] at hindex
  obtain ⟨b, hb, s₁, s₂, hcell⟩ := hget index hindex
  obtain ⟨cells, hcells, hcombine⟩ := Run.lift_bind_eq_ok.mp hcell
  exact ⟨b, hb, bind_eq_ok.mpr ⟨cells, hcells, (Run.lift_eq_ok.mp hcombine).1⟩⟩

theorem reduce_cells [Cell β] {r : Tensor β} {s s' : σ}
    (h : reduce output operands (fun cells => (combine cells : Except Fault β))
      (fun cells => (aggregate cells : Except Fault β)) s = .ok r s') :
    ∃ extent : Char → Nat,
      (∀ operand ∈ operands, operand.tensor.shape = operand.letters.map extent) ∧
      r.shape = output.toList.map extent ∧
      ∀ index ∈ r.shape.indices,
        ∃ b, r.get index = .ok b ∧
          contractedCell output operands extent combine aggregate index = .ok b := by
  unfold reduce at h
  obtain ⟨joined, s₁, hjoin, hfold⟩ := Run.bind_eq_ok.mp h
  obtain ⟨-, hfolded, hbounds, extent, hshapes, hshape, hcells⟩ := join_cells hjoin
  obtain ⟨-, hfill⟩ := Tensor.fold_ok hbounds hfold
  have hsplit : joined.tensor.rank - joined.folded = (output.toList.map extent).length := by
    rw [Tensor.rank, hshape, hfolded, jointLabels]
    simp
  have houter : joined.tensor.outerShape joined.folded = output.toList.map extent := by
    rw [Tensor.outerShape, hsplit, hshape, jointLabels, List.map_append, List.take_left']
    rfl
  have hinner : joined.tensor.innerShape joined.folded =
      (foldedLabels output operands).map extent := by
    rw [Tensor.innerShape, hsplit, hshape, jointLabels, List.map_append, List.drop_left']
    rfl
  rw [houter] at hfill
  obtain ⟨hr, -, hget⟩ := Tensor.fill_spec hfill
  refine ⟨extent, hshapes, hr, fun index hindex => ?_⟩
  rw [hr] at hindex
  obtain ⟨b, hb, s₂, s₃, hcell⟩ := hget index hindex
  obtain ⟨block, hblock, haggregate⟩ := Run.lift_bind_eq_ok.mp hcell
  refine ⟨b, hb, bind_eq_ok.mpr ⟨block, ?_, (Run.lift_eq_ok.mp haggregate).1⟩⟩
  rw [← hblock, Tensor.blockCells, hinner]
  refine Shape.mapM_congr fun j hj => ?_
  have hmem : index ++ j ∈ joined.tensor.shape.indices := by
    rw [hshape, jointLabels, List.map_append]
    exact Shape.append_mem_indices hindex hj
  obtain ⟨c, hc, hjoint⟩ := hcells _ hmem
  rw [hc, hjoint]

/-- The block of joint cells that is aggregated into one cell: one cell if nothing is
folded, and none if a folded label has extent 0. -/
theorem contractedCell_ok {extent : Char → Nat} {index : Index} {b : β}
    (h : contractedCell output operands extent combine aggregate index = .ok b) :
    ∃ block,
      (Shape.indices ((foldedLabels output operands).map extent)).mapM
          (fun j => jointCell output operands combine (index ++ j)) = .ok block ∧
        aggregate block = .ok b ∧
        (foldedLabels output operands = [] → block.length = 1) ∧
        ∀ c ∈ foldedLabels output operands, extent c = 0 → block = [] := by
  obtain ⟨block, hblock, haggregate⟩ := bind_eq_ok.mp h
  refine ⟨block, hblock, haggregate, fun hnil => ?_, fun c hc hzero => ?_⟩
  · rw [hnil, List.map_nil, Shape.indices, List.mapM_cons, List.mapM_nil] at hblock
    obtain ⟨b, -, hpure⟩ := bind_eq_ok.mp hblock
    cases hpure
    rfl
  · have hempty : Shape.indices ((foldedLabels output operands).map extent) = [] :=
      Shape.indices_eq_nil_iff.mpr (hzero ▸ List.mem_map_of_mem hc)
    rw [hempty, List.mapM_nil] at hblock
    cases hblock
    rfl

/-- `join` and `reduce` compute the reference contraction, for every labelling that
they accept and for any two functions on cells, total or not. -/
theorem contraction_spec [Cell β] (output : String) (operands : List (Labelled α))
    (combine : List α → Except Fault β) (aggregate : List β → Except Fault β) (s s' : σ) :
    (∀ joined : Joined β,
      join output operands (fun cells => (combine cells : Except Fault β)) s =
        .ok joined s' →
      joined.labels.toList = jointLabels output operands ∧
        joined.folded = (foldedLabels output operands).length ∧
        ∃ extent : Char → Nat,
          (∀ operand ∈ operands, operand.tensor.shape = operand.letters.map extent) ∧
          joined.tensor.shape = (jointLabels output operands).map extent ∧
          ∀ index ∈ joined.tensor.shape.indices,
            ∃ b, joined.tensor.get index = .ok b ∧
              jointCell output operands combine index = .ok b) ∧
    ∀ r : Tensor β,
      reduce output operands (fun cells => (combine cells : Except Fault β))
        (fun cells => (aggregate cells : Except Fault β)) s = .ok r s' →
      ∃ extent : Char → Nat,
        (∀ operand ∈ operands, operand.tensor.shape = operand.letters.map extent) ∧
        r.shape = output.toList.map extent ∧
        ∀ index ∈ r.shape.indices,
          ∃ block b, r.get index = .ok b ∧ aggregate block = .ok b ∧
            (Shape.indices ((foldedLabels output operands).map extent)).mapM
              (fun j => jointCell output operands combine (index ++ j)) = .ok block ∧
            (foldedLabels output operands = [] → block.length = 1) ∧
            ∀ c ∈ foldedLabels output operands, extent c = 0 → block = [] := by
  refine ⟨fun joined h => ?_, fun r h => ?_⟩
  · obtain ⟨hlabels, hfolded, -, hcells⟩ := join_cells h
    exact ⟨hlabels, hfolded, hcells⟩
  · obtain ⟨extent, hshapes, hshape, hcells⟩ := reduce_cells h
    refine ⟨extent, hshapes, hshape, fun index hindex => ?_⟩
    obtain ⟨b, hb, hcell⟩ := hcells index hindex
    obtain ⟨block, hblock, haggregate, hone, hnone⟩ := contractedCell_ok hcell
    exact ⟨block, b, hb, haggregate, hblock, hone, hnone⟩

/-- Two relations on two elements, labelled for their composite. -/
def composed : List (Labelled Bool) :=
  [Tensor.named { shape := [2, 2], strides := [2, 1], offset := 0,
                  buffer := #[true, false, true, true] } "xy",
    Tensor.named { shape := [2, 2], strides := [2, 1], offset := 0,
                   buffer := #[false, true, false, false] } "yz"]

def everyCell (cells : List Bool) : Except Fault Bool :=
  .ok (cells.all fun cell => cell)

def someCell (cells : List Bool) : Except Fault Bool :=
  .ok (cells.any fun cell => cell)

theorem composed_ok :
    (∃ joined, join "xz" composed (fun cells => (everyCell cells : Except Fault Bool)) () =
      .ok joined ()) ∧
    ∃ r, reduce "xz" composed (fun cells => (everyCell cells : Except Fault Bool))
      (fun cells => (someCell cells : Except Fault Bool)) () = .ok r () :=
  ⟨⟨_, rfl⟩, ⟨_, rfl⟩⟩

theorem contraction_spec_composed :
    ∃ joined r,
      join "xz" composed (fun cells => (everyCell cells : Except Fault Bool)) () =
        .ok joined () ∧
      joined.labels.toList = ['x', 'z', 'y'] ∧ joined.folded = 1 ∧
      reduce "xz" composed (fun cells => (everyCell cells : Except Fault Bool))
        (fun cells => (someCell cells : Except Fault Bool)) () = .ok r () ∧
      ∀ index ∈ r.shape.indices, ∃ block b, r.get index = .ok b ∧ someCell block = .ok b := by
  obtain ⟨⟨joined, hjoin⟩, r, hreduce⟩ := composed_ok
  obtain ⟨hjoined, hreduced⟩ := contraction_spec "xz" composed everyCell someCell () ()
  obtain ⟨hlabels, hfolded, -⟩ := hjoined joined hjoin
  obtain ⟨extent, -, -, hcells⟩ := hreduced r hreduce
  refine ⟨joined, r, hjoin, hlabels.trans (by decide), hfolded.trans (by decide), hreduce, ?_⟩
  intro index hindex
  obtain ⟨block, b, hget, hsome, -⟩ := hcells index hindex
  exact ⟨block, b, hget, hsome⟩

end Join

end TensorLogic
