import Mathlib.Data.List.GetD
import TensorLogic.Proofs.Contraction

/-!
# Contractions by assignments of labels

A joint index is one coordinate for each label, so it may as well be read as an
assignment of coordinates to all labels. An operand then has a cell under an
assignment (`Labelled.cellAt`), whatever the layout of the joint index space is,
and contractions over different spaces can be compared.

`Join.reduce_assigned` says it for any two functions on cells: the block that is
aggregated into a cell of the output holds what the assignments that extend the
cell's index give.
-/

namespace TensorLogic

variable {α β σ : Type}

/-- The cell of an operand where each axis takes the coordinate of its label. -/
def Labelled.cellAt (ρ : Char → Nat) (operand : Labelled α) : Except Fault α :=
  operand.tensor.get (operand.letters.map ρ)

theorem letters_named (t : Tensor α) (labels : List Char) :
    (t.named (String.ofList labels)).letters = labels :=
  String.toList_ofList

theorem cellAt_named (t : Tensor α) (labels : List Char) (π : Char → Nat) :
    (t.named (String.ofList labels)).cellAt π = t.get (labels.map π) := by
  rw [Labelled.cellAt, letters_named]
  rfl

/-- The assignment stays within the extents of the labels. -/
def Within (extent : Char → Nat) (labels : List Char) (ρ : Char → Nat) : Prop :=
  ∀ c ∈ labels, ρ c < extent c

theorem map_mem_indices {labels : List Char} {extent ρ : Char → Nat} :
    labels.map ρ ∈ Shape.indices (labels.map extent) ↔ Within extent labels ρ := by
  rw [Shape.mem_indices, List.forall₂_map_left_iff, List.forall₂_map_right_iff,
    List.forall₂_same]
  rfl

theorem getD_map_idxOf {labels : List Char} {c : Char} (h : c ∈ labels) (ρ : Char → Nat) :
    (labels.map ρ).getD (labels.idxOf c) 0 = ρ c := by
  have hlt : labels.idxOf c < labels.length := List.idxOf_lt_length_of_mem h
  rw [List.getD_eq_getElem _ _ (by simpa using hlt), List.getElem_map, List.getElem_idxOf hlt]

/-- Over distinct labels every list of coordinates is an assignment. -/
theorem exists_assignment {labels : List Char} (h : labels.Nodup) {index : Index}
    (hlen : index.length = labels.length) : ∃ ρ : Char → Nat, labels.map ρ = index := by
  refine ⟨fun c => index.getD (labels.idxOf c) 0, List.ext_getElem (by simpa using hlen.symm) ?_⟩
  intro k hk hk'
  rw [List.getElem_map, h.idxOf_getElem, List.getD_eq_getElem _ _ hk']

theorem Labelled.read_map {operand : Labelled α} {labels : List Char}
    (h : ∀ c ∈ operand.letters, c ∈ labels) (ρ : Char → Nat) :
    operand.read labels (labels.map ρ) = operand.cellAt ρ := by
  rw [Labelled.read, Labelled.cellAt]
  exact congrArg operand.tensor.get
    (List.map_congr_left fun c hc => getD_map_idxOf (h c hc) ρ)

theorem Labelled.cellAt_congr {operand : Labelled α} {ρ π : Char → Nat}
    (h : ∀ c ∈ operand.letters, ρ c = π c) : operand.cellAt ρ = operand.cellAt π := by
  rw [Labelled.cellAt, Labelled.cellAt, List.map_congr_left h]

namespace Join

variable {output : String} {operands : List (Labelled α)}

theorem mem_foldedLabels {c : Char} :
    c ∈ foldedLabels output operands ↔
      (∃ operand ∈ operands, c ∈ operand.letters) ∧ c ∉ output.toList := by
  simp [foldedLabels, List.mem_eraseDups]

theorem nodup_foldedLabels : (foldedLabels output operands).Nodup :=
  (nodup_eraseDups _).filter _

theorem mem_jointLabels {operand : Labelled α} (h : operand ∈ operands) {c : Char}
    (hc : c ∈ operand.letters) : c ∈ jointLabels output operands := by
  rw [jointLabels, List.mem_append, mem_foldedLabels]
  by_cases hmem : c ∈ output.toList
  · exact .inl hmem
  · exact .inr ⟨⟨operand, h, hc⟩, hmem⟩

/-- The assignments that give a cell of the output its block: they extend the index of
the cell and stay within the operands. -/
structure Extends (output : String) (operands : List (Labelled α)) (extent ρ π : Char → Nat) :
    Prop where
  output_eq : ∀ c ∈ output.toList, π c = ρ c
  within : ∀ operand ∈ operands, Within extent operand.letters π

/-- What the operands combine to under an assignment. -/
def combinedAt (operands : List (Labelled α)) (combine : List α → Except Fault β)
    (π : Char → Nat) : Except Fault β := do
  combine (← operands.mapM (Labelled.cellAt π))

variable {extent ρ π : Char → Nat} {combine : List α → Except Fault β}
  {aggregate : List β → Except Fault β}

theorem jointCell_map (π : Char → Nat) :
    jointCell output operands combine ((jointLabels output operands).map π) =
      combinedAt operands combine π := by
  have hread : readAll output operands ((jointLabels output operands).map π) =
      operands.mapM (Labelled.cellAt π) :=
    Shape.mapM_congr fun operand hoperand =>
      operand.read_map (fun c hc => mem_jointLabels hoperand hc) π
  rw [jointCell, hread, combinedAt]

/-- An assignment that extends the index of a cell gives a joint index of its block. -/
theorem Extends.jointCell_eq (h : Extends output operands extent ρ π) :
    jointCell output operands combine
        (output.toList.map ρ ++ (foldedLabels output operands).map π) =
      combinedAt operands combine π := by
  have houtput : output.toList.map ρ = output.toList.map π :=
    List.map_congr_left fun c hc => (h.output_eq c hc).symm
  rw [houtput, ← List.map_append, ← jointLabels, jointCell_map]

/-- Apart from the output, which is given, only the folded labels are free. -/
theorem extends_iff (hρ : Within extent output.toList ρ) :
    Extends output operands extent ρ π ↔
      (∀ c ∈ output.toList, π c = ρ c) ∧ Within extent (foldedLabels output operands) π := by
  constructor
  · intro h
    refine ⟨h.output_eq, fun c hc => ?_⟩
    obtain ⟨⟨operand, hoperand, hletter⟩, -⟩ := mem_foldedLabels.mp hc
    exact h.within operand hoperand c hletter
  · rintro ⟨houtput, hfolded⟩
    refine ⟨houtput, fun operand hoperand c hc => ?_⟩
    by_cases hmem : c ∈ output.toList
    · rw [houtput c hmem]
      exact hρ c hmem
    · exact hfolded c (mem_foldedLabels.mpr ⟨⟨operand, hoperand, hc⟩, hmem⟩)

/-- Every index of a block comes from an assignment that extends the index of the cell. -/
theorem exists_extends (hρ : Within extent output.toList ρ) {j : Index}
    (hj : j ∈ Shape.indices ((foldedLabels output operands).map extent)) :
    ∃ π, Extends output operands extent ρ π ∧ (foldedLabels output operands).map π = j := by
  have hlen := Shape.length_of_mem_indices hj
  rw [List.length_map] at hlen
  obtain ⟨ρ', rfl⟩ := exists_assignment nodup_foldedLabels hlen
  rw [map_mem_indices] at hj
  let π : Char → Nat := fun c => if c ∈ output.toList then ρ c else ρ' c
  have hfolded : ∀ c ∈ foldedLabels output operands, π c = ρ' c := fun c hc =>
    if_neg (mem_foldedLabels.mp hc).2
  refine ⟨π, (extends_iff hρ).mpr ⟨fun c hc => if_pos hc, fun c hc => ?_⟩,
    List.map_congr_left hfolded⟩
  rw [hfolded c hc]
  exact hj c hc

variable [Cell β] {r : Tensor β} {s s' : σ}

/-- The output of a contraction that returns names labels of the operands, each once. -/
theorem output_of_reduce {combine : List α → Run σ β} {aggregate : List β → Run σ β}
    (h : reduce output operands combine aggregate s = .ok r s') :
    output.toList.Nodup ∧
      ∀ c ∈ output.toList, ∃ operand ∈ operands, c ∈ operand.letters := by
  obtain ⟨joined, s₁, hjoin, -⟩ := Run.bind_eq_ok.mp h
  rw [join_eq] at hjoin
  obtain ⟨axes, haxes, -⟩ := Run.lift_bind_eq_ok.mp hjoin
  obtain ⟨hnodup, hmem⟩ := jointAxes_output haxes
  exact ⟨hnodup, fun c hc => by simpa using hmem c hc⟩

theorem inBounds_of_reduce {combine : List α → Run σ β} {aggregate : List β → Run σ β}
    (h : reduce output operands combine aggregate s = .ok r s') : r.InBounds := by
  obtain ⟨joined, s₁, hjoin, hfold⟩ := Run.bind_eq_ok.mp h
  obtain ⟨-, -, extent, -, hfill⟩ := join_ok hjoin
  obtain ⟨-, hbounds, -⟩ := Tensor.fill_spec hfill
  obtain ⟨-, hfilled⟩ := Tensor.fold_ok hbounds hfold
  exact (Tensor.fill_spec hfilled).2.1

/-- The extents of a contraction are those of any labelling that fits the operands. -/
theorem reduce_sized
    (h : reduce output operands (fun cells => (combine cells : Except Fault β))
      (fun cells => (aggregate cells : Except Fault β)) s = .ok r s')
    (hsized : Sized extent operands) :
    r.shape = output.toList.map extent ∧
      ∀ index ∈ r.shape.indices, ∃ b, r.get index = .ok b ∧
        contractedCell output operands extent combine aggregate index = .ok b := by
  obtain ⟨extent', hsized', hshape, hcells⟩ := reduce_cells h
  have houtput : output.toList.map extent' = output.toList.map extent :=
    Sized.map_eq hsized' hsized (output_of_reduce h).2
  have hfolded : (foldedLabels output operands).map extent' =
      (foldedLabels output operands).map extent :=
    Sized.map_eq hsized' hsized fun c hc => (mem_foldedLabels.mp hc).1
  refine ⟨hshape.trans houtput, fun index hindex => ?_⟩
  rw [contractedCell, ← hfolded]
  exact hcells index hindex

/-- A contraction aggregates, cell by cell, what the operands combine to under the
assignments that extend the index of the cell. -/
theorem reduce_assigned
    (h : reduce output operands (fun cells => (combine cells : Except Fault β))
      (fun cells => (aggregate cells : Except Fault β)) s = .ok r s')
    (hsized : Sized extent operands) (hρ : Within extent output.toList ρ) :
    ∃ block b, r.get (output.toList.map ρ) = .ok b ∧ aggregate block = .ok b ∧
      (∀ x ∈ block, ∃ π, Extends output operands extent ρ π ∧
        combinedAt operands combine π = .ok x) ∧
      ∀ π, Extends output operands extent ρ π →
        ∃ x ∈ block, combinedAt operands combine π = .ok x := by
  obtain ⟨hshape, hcells⟩ := reduce_sized h hsized
  obtain ⟨b, hget, hcell⟩ := hcells (output.toList.map ρ) (hshape ▸ map_mem_indices.mpr hρ)
  obtain ⟨block, hblock, haggregate, -⟩ := contractedCell_ok hcell
  obtain ⟨hcomplete, hsound⟩ := exists_of_forall₂ (mapM_eq_ok.mp hblock)
  refine ⟨block, b, hget, haggregate, fun x hx => ?_, fun π hπ => ?_⟩
  · obtain ⟨j, hj, hjoint⟩ := hsound x hx
    obtain ⟨π, hπ, rfl⟩ := exists_extends hρ hj
    exact ⟨π, hπ, hπ.jointCell_eq ▸ hjoint⟩
  · obtain ⟨x, hx, hjoint⟩ := hcomplete _ (map_mem_indices.mpr ((extends_iff hρ).mp hπ).2)
    exact ⟨x, hx, hπ.jointCell_eq ▸ hjoint⟩

end Join

end TensorLogic
