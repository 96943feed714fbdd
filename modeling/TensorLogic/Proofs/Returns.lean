import TensorLogic.Proofs.Assignments
import TensorLogic.Proofs.Capacity
import TensorLogic.Proofs.Walk

/-!
# When contractions return

The other theorems about `reduce` say what a contraction that returns has computed.
Here it is shown to return: the labels have to fit, the cells have to be readable, the
two functions on cells have to be total, and there has to be room for the joint index
space, for a folded block and for the output (`Join.reduce_returns`).
-/

namespace TensorLogic

variable {α β σ : Type}

theorem Run.lift_bind (x : Except Fault α) (k : α → Except Fault β) :
    (liftM (x >>= k) : Run σ β) = liftM x >>= fun a => liftM (k a) := by
  cases x <;> rfl

namespace Tensor

variable {s : σ}

theorem InBounds.blockCells_ok {t : Tensor α} (ht : t.InBounds) {axes : Nat} {index : Index}
    (hindex : index ∈ (t.outerShape axes).indices) :
    ∃ cells, t.blockCells axes index = .ok cells := by
  exact mapM_ok_of_forall fun j hj => ht.get_ok (append_mem_indices hindex hj)

theorem fold_returns [Cell α] [Cell β] {t : Tensor α} (ht : t.InBounds) {axes : Nat}
    (haxes : axes ≤ t.rank) {g : List α → Except Fault β}
    (hblock : (t.innerShape axes).Blockable α) (h : (t.outerShape axes).Fillable β)
    (hg : ∀ cells, ∃ b, g cells = .ok b) :
    ∃ r, t.fold axes (fun cells => (g cells : Except Fault β)) s = .ok r s := by
  obtain ⟨strides, hplain, -⟩ := h.storable
  have hcell : ∀ index ∈ (t.outerShape axes).indices,
      ∃ b, (t.blockCells axes index >>= g) = .ok b := by
    intro index hindex
    obtain ⟨cells, hcells⟩ := ht.blockCells_ok hindex
    obtain ⟨b, hb⟩ := hg cells
    exact ⟨b, bind_eq_ok.mpr ⟨cells, hcells, hb⟩⟩
  obtain ⟨r, hr⟩ := fill_returns h.storable hcell
  simp only [Run.lift_bind] at hr
  refine ⟨r, ?_⟩
  rw [fold_eq ht, if_pos haxes]
  exact Run.lift_bind_eq_ok.mpr ⟨(), Shape.block_eq_ok_iff.mpr hblock,
    Run.lift_bind_eq_ok.mpr ⟨_, hplain, Run.lift_bind_eq_ok.mpr ⟨(), h.reserved, hr⟩⟩⟩

end Tensor

namespace Join

variable {output : String} {operands : List (Labelled α)} {extent : Char → Nat}
  {combine : List α → Except Fault β} {aggregate : List β → Except Fault β} {s : σ}

/-- The labels fit the operands, and the output names labels of theirs. -/
structure Fits (output : String) (operands : List (Labelled α)) (extent : Char → Nat) :
    Prop where
  nonempty : operands ≠ []
  sized : Sized extent operands
  nodup : output.toList.Nodup
  known : ∀ c ∈ output.toList, ∃ operand ∈ operands, c ∈ operand.letters

theorem Fits.nodup_jointLabels (h : Fits output operands extent) :
    (jointLabels output operands).Nodup := by
  rw [jointLabels, List.nodup_append']
  exact ⟨h.nodup, nodup_foldedLabels, fun c hc hfolded => (mem_foldedLabels.mp hfolded).2 hc⟩

theorem Fits.map_jointLabels (h : Fits output operands extent) {extent' : Char → Nat}
    (h' : Sized extent' operands) :
    (jointLabels output operands).map extent' = (jointLabels output operands).map extent := by
  refine Sized.map_eq h' h.sized fun c hc => ?_
  rcases List.mem_append.mp hc with houtput | hfolded
  · exact h.known c houtput
  · exact (mem_foldedLabels.mp hfolded).1

/-- At every joint index each operand has a cell. -/
theorem Fits.readAll_ok (h : Fits output operands extent)
    (hread : ∀ operand ∈ operands, operand.tensor.Readable) {index : Index}
    (hindex : index ∈ Shape.indices ((jointLabels output operands).map extent)) :
    ∃ cells, readAll output operands index = .ok cells ∧ cells.length = operands.length := by
  obtain ⟨ρ, rfl⟩ := exists_assignment h.nodup_jointLabels
    ((Shape.length_of_mem_indices hindex).trans (List.length_map _))
  rw [map_mem_indices] at hindex
  have hcell : ∀ operand ∈ operands, ∃ cell,
      operand.read (jointLabels output operands) ((jointLabels output operands).map ρ) =
        .ok cell := by
    intro operand hoperand
    have hletters : ∀ c ∈ operand.letters, c ∈ jointLabels output operands := fun c hc =>
      mem_jointLabels hoperand hc
    have hmem : operand.letters.map ρ ∈ operand.tensor.shape.indices := by
      rw [h.sized operand hoperand, map_mem_indices]
      exact fun c hc => hindex c (hletters c hc)
    rw [operand.read_map hletters]
    exact hread operand hoperand _ hmem
  obtain ⟨cells, hcells⟩ := mapM_ok_of_forall hcell
  exact ⟨cells, hcells, (mapM_eq_ok.mp hcells).length_eq.symm⟩

theorem Fits.jointAxes_ok (h : Fits output operands extent) :
    ∃ axes, jointAxes output operands = .ok axes ∧
      (axes.1 ++ axes.2).map (·.extent) = (jointLabels output operands).map extent := by
  obtain ⟨axes, haxes⟩ := jointAxes_of_sized h.nonempty h.sized h.nodup fun c hc => by
    simpa using h.known c hc
  obtain ⟨-, -, extent', hsized', hkept, hfolded⟩ := jointAxes_spec haxes
  refine ⟨axes, haxes, ?_⟩
  rw [List.map_append, hkept, hfolded, ← List.map_append]
  exact h.map_jointLabels hsized'

theorem join_returns [Cell β] (h : Fits output operands extent)
    (hread : ∀ operand ∈ operands, operand.tensor.Readable)
    (hfill : Shape.Fillable ((jointLabels output operands).map extent) β)
    (hcombine : ∀ cells, cells.length = operands.length → ∃ b, combine cells = .ok b) :
    ∃ joined, join output operands (fun cells => (combine cells : Except Fault β)) s =
      .ok joined s := by
  obtain ⟨axes, haxes, hshape⟩ := h.jointAxes_ok
  have hcell : ∀ index ∈ Shape.indices ((jointLabels output operands).map extent),
      ∃ b, (readAll output operands index >>= combine) = .ok b := by
    intro index hindex
    obtain ⟨cells, hcells, hlen⟩ := h.readAll_ok hread hindex
    obtain ⟨b, hb⟩ := hcombine cells hlen
    exact ⟨b, bind_eq_ok.mpr ⟨cells, hcells, hb⟩⟩
  obtain ⟨t, ht⟩ := Tensor.generate_returns hfill hcell
  simp only [Run.lift_bind] at ht
  refine ⟨{ tensor := t, labels := String.ofList ((axes.1 ++ axes.2).map (·.label)),
            folded := axes.2.length }, ?_⟩
  rw [join_eq, haxes]
  refine Run.lift_bind_eq_ok.mpr ⟨axes, rfl, ?_⟩
  rw [hshape]
  exact Run.lift_bind_eq_ok.mpr ⟨_, hfill.checked, Run.bind_eq_ok.mpr ⟨t, s, ht, rfl⟩⟩

/-- A contraction returns if the labels fit, the cells can be read, the functions are
total, and there is room for the joint index space, for a folded block and for the
output. -/
theorem reduce_returns [Cell β] (h : Fits output operands extent)
    (hread : ∀ operand ∈ operands, operand.tensor.Readable)
    (hjoint : Shape.Fillable ((jointLabels output operands).map extent) β)
    (hblock : Shape.Blockable ((foldedLabels output operands).map extent) β)
    (houter : Shape.Fillable (output.toList.map extent) β)
    (hcombine : ∀ cells, cells.length = operands.length → ∃ b, combine cells = .ok b)
    (haggregate : ∀ block, ∃ c, aggregate block = .ok c) :
    ∃ r, reduce output operands (fun cells => (combine cells : Except Fault β))
      (fun cells => (aggregate cells : Except Fault β)) s = .ok r s := by
  obtain ⟨joined, hjoin⟩ := join_returns h hread hjoint hcombine
  obtain ⟨-, hfolded, hbounds, extent', hsized', hshape, -⟩ := join_cells hjoin
  have hlabels : joined.tensor.shape = (jointLabels output operands).map extent :=
    hshape.trans (h.map_jointLabels hsized')
  have hrank : joined.tensor.rank = output.toList.length + joined.folded := by
    rw [Tensor.rank, hlabels, hfolded, jointLabels, List.length_map, List.length_append]
  have hsplit : joined.tensor.rank - joined.folded = (output.toList.map extent).length := by
    rw [List.length_map]
    omega
  have hshapes : joined.tensor.outerShape joined.folded = output.toList.map extent := by
    rw [Tensor.outerShape, hsplit, hlabels, jointLabels, List.map_append, List.take_left']
    rfl
  have hinner : joined.tensor.innerShape joined.folded =
      (foldedLabels output operands).map extent := by
    rw [Tensor.innerShape, hsplit, hlabels, jointLabels, List.map_append, List.drop_left']
    rfl
  obtain ⟨r, hr⟩ :=
    Tensor.fold_returns hbounds (by omega) (hinner ▸ hblock) (hshapes ▸ houter) haggregate
  exact ⟨r, Run.bind_eq_ok.mpr ⟨joined, s, hjoin, hr⟩⟩

end Join

end TensorLogic
