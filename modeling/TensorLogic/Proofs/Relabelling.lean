import Mathlib.Logic.Equiv.Basic
import TensorLogic.Proofs.Blocks
import TensorLogic.Proofs.Demands
import TensorLogic.Proofs.Walk

/-!
# Order of operands and names of labels

Neither matters to the outcome of a contraction (`Join.reduce_relabelled`): with its operands
in another order, or its labels renamed without clashes, it is refused if it was refused
before, and it returns an equal tensor if it returned one before. A contraction whose labels
fit returns a tensor if there is memory for it (`Join.Roomy`), and traps otherwise.

The cells have been compared in `Blocks.lean`, so only the outcomes are left. Whether the label
checks let a contraction pass is a property of shapes and labels as a whole, `Join.Fits`; the
order decides only which of several misfits is reported. Behind these checks stand the
buffers. Operands in another order rearrange the axes of the joint index space, and two
arrangements of the same extents need not behave alike: `[2 ^ 40, 2 ^ 40, 0]` is refused for the
product of its first two extents, while `[0, 2 ^ 40, 2 ^ 40]` passes that check and traps when
its strides are computed. Where the product of the extents other than 0 is a word
(`Join.FitsWord`), every arrangement can be laid out, and all that can be missing is the memory.
-/

namespace TensorLogic

variable {α : Type}

/-! ## Shapes in another order -/

namespace Shape

variable {shape shape' : Shape}

/-- The product of the extents, those that are 0 left out. -/
def nonzeroCells (shape : Shape) : Nat :=
  cells (shape.filter (· ≠ 0))

theorem cells_perm (h : shape.Perm shape') : cells shape = cells shape' := by
  refine h.foldr_eq' (fun m _ n _ acc => ?_) 1
  exact Nat.mul_left_comm n m acc

theorem nonzeroCells_perm (h : shape.Perm shape') : nonzeroCells shape = nonzeroCells shape' :=
  cells_perm (h.filter _)

theorem nonzeroCells_cons {n : Nat} (hn : 0 < n) (shape : Shape) :
    nonzeroCells (n :: shape) = n * nonzeroCells shape := by
  rw [nonzeroCells, List.filter_cons_of_pos (by simpa using Nat.ne_of_gt hn)]
  rfl

/-- No selection of the extents has a larger product. -/
theorem cells_le_nonzeroCells (h : shape.Sublist shape') : cells shape ≤ nonzeroCells shape' := by
  induction h with
  | slnil => exact Nat.le_refl _
  | cons n _ ih =>
      obtain rfl | hn := Nat.eq_zero_or_pos n
      · exact ih
      · rw [nonzeroCells_cons hn]
        exact Nat.le_trans ih (Nat.le_mul_of_pos_left _ hn)
  | @cons_cons shape _ n _ ih =>
      obtain rfl | hn := Nat.eq_zero_or_pos n
      · have hzero : cells (0 :: shape) = 0 := Nat.zero_mul _
        rw [hzero]
        exact Nat.zero_le _
      · rw [nonzeroCells_cons hn]
        exact Nat.mul_le_mul_left n ih

theorem storable_of_nonzeroCells (h : shape.Sublist shape')
    (hword : shape'.nonzeroCells < Word.bound) : shape.Storable := by
  have hpart : ∀ part : Shape, part.Sublist shape → part.cells < Word.bound := by
    intro part hpart
    have hle := cells_le_nonzeroCells (hpart.trans h)
    omega
  exact storable_iff.mpr ⟨fun k => hpart _ (List.take_sublist k shape),
    fun k => hpart _ (List.drop_sublist k shape)⟩

end Shape

/-! ## Outcomes -/

/-- Both return, and then equal tensors, or both are refused, or both trap for one cause. -/
def SameOutcome : Except Fault (Tensor Bool) → Except Fault (Tensor Bool) → Prop
  | .ok r, .ok r' => Tensor.equal r r' = .ok true
  | .error (.refused _), .error (.refused _) => True
  | .error (.trapped cause), .error (.trapped cause') => cause = cause'
  | _, _ => False

theorem SameOutcome.of_agree {x y : Except Fault (Tensor Bool)}
    (h : Agree (fun r r' => Tensor.equal r r' = .ok true) x y) : SameOutcome x y := by
  match x, y, h with
  | .ok r, .ok r', h => exact h
  | .error (.refused _), .error _, rfl => exact trivial
  | .error (.trapped _), .error _, rfl => exact rfl

namespace Join

section Fits

variable {output output' : String} {operands operands' : List (Labelled α)}
  {extent extent' : Char → Nat}

/-- Whatever the extents of the labels are, their product is a word, those that are 0
left out. -/
def FitsWord (operands : List (Labelled α)) : Prop :=
  ∀ extent, Sized extent operands →
    Shape.nonzeroCells ((operands.flatMap Labelled.letters).eraseDups.map extent) < Word.bound

/-- There is memory for all that a contraction asks for: for the cells of the joint index space,
for those of a block that is folded and their offsets, and for the cells of the result. -/
structure Roomy (output : String) (operands : List (Labelled α)) (extent : Char → Nat) :
    Prop where
  joint : Shape.Fillable ((jointLabels output operands).map extent) Bool
  block : Shape.Blockable ((foldedLabels output operands).map extent) Bool
  result : Shape.Fillable (output.toList.map extent) Bool

theorem roomy_iff : Roomy output operands extent ↔
    ∀ request ∈ contraction (output.toList.map extent)
      ((foldedLabels output operands).map extent), request.Met := by
  simp only [contraction, Tensor.folding, List.forall_mem_cons, List.not_mem_nil, false_imp_iff,
    implies_true, and_true, Request.Met]
  rw [← List.map_append, ← jointLabels]
  constructor
  · intro h
    exact ⟨h.joint, h.block, h.result⟩
  · rintro ⟨hjoint, hblock, hresult⟩
    exact ⟨hjoint, hblock, hresult⟩

theorem Fits.perm_jointLabels (h : Fits output operands extent) :
    (jointLabels output operands).Perm (operands.flatMap Labelled.letters).eraseDups := by
  rw [List.perm_ext_iff_of_nodup h.nodup_jointLabels (nodup_eraseDups _)]
  intro c
  rw [jointLabels, List.mem_append, mem_foldedLabels, List.mem_eraseDups, List.mem_flatMap]
  constructor
  · rintro (houtput | hfolded)
    · exact h.known c houtput
    · exact hfolded.1
  · intro hknown
    by_cases hmem : c ∈ output.toList
    · exact .inl hmem
    · exact .inr ⟨hknown, hmem⟩

theorem Fits.nonzeroCells_lt (h : Fits output operands extent) (hword : FitsWord operands) :
    Shape.nonzeroCells ((jointLabels output operands).map extent) < Word.bound := by
  rw [Shape.nonzeroCells_perm (h.perm_jointLabels.map extent)]
  exact hword extent h.sized

theorem Fits.perm (h : Fits output operands extent) (hperm : operands.Perm operands') :
    Fits output operands' extent where
  nonempty hnil := h.nonempty (by rw [hnil] at hperm; exact hperm.eq_nil)
  sized operand hoperand := h.sized operand (hperm.mem_iff.mpr hoperand)
  nodup := h.nodup
  known c hc := by
    obtain ⟨operand, hoperand, hletter⟩ := h.known c hc
    exact ⟨operand, hperm.mem_iff.mp hoperand, hletter⟩

theorem fits_relabel {f : Char → Char} (hf : Function.Injective f) :
    Fits (output.map f) (operands.map (Labelled.relabel f)) extent ↔
      Fits output operands (extent ∘ f) := by
  have hknown : (∀ c ∈ (output.map f).toList, ∃ operand ∈ operands.map (Labelled.relabel f),
      c ∈ operand.letters) ↔ ∀ c ∈ output.toList, ∃ operand ∈ operands, c ∈ operand.letters := by
    simp [letters_relabel, hf.eq_iff]
  constructor
  · intro h
    refine ⟨fun hnil => h.nonempty (by rw [hnil, List.map_nil]),
      (sized_relabel operands).mp h.sized, ?_, hknown.mp h.known⟩
    exact List.Nodup.of_map f (String.toList_map ▸ h.nodup)
  · intro h
    refine ⟨fun hnil => h.nonempty (List.map_eq_nil_iff.mp hnil),
      (sized_relabel operands).mpr h.sized, ?_, hknown.mpr h.known⟩
    rw [String.toList_map]
    exact h.nodup.map hf

/-- Labels that fit are all that the checks of a join ask for. -/
theorem jointAxes_of_not_fits (h : ∀ extent, ¬ Fits output operands extent) :
    ∃ cause, jointAxes output operands = .error (.refused cause) := by
  cases haxes : jointAxes output operands with
  | ok axes =>
      obtain ⟨-, -, extent, hsized, -⟩ := jointAxes_spec haxes
      obtain ⟨hnodup, hknown⟩ := jointAxes_output haxes
      refine absurd ⟨?_, hsized, hnodup, fun c hc => List.mem_flatMap.mp (hknown c hc)⟩ (h extent)
      rintro rfl
      cases haxes
  | error fault =>
      obtain ⟨cause, rfl⟩ := jointAxes_failsBy (P := Fault.IsRefusal) (fun cause => ⟨cause, rfl⟩)
        output operands fault haxes
      exact ⟨cause, rfl⟩

end Fits

section Outcomes

variable {output output' : String} {operands operands' : List (Labelled Bool)}
  {extent extent' : Char → Nat} {agg : Aggregate} {op : Connective}

theorem reduce_of_not_fits (agg : Aggregate) (op : Connective)
    (h : ∀ extent, ¬ Fits output operands extent) :
    ∃ cause, (truthValues.reduce agg output op operands).value = .error (.refused cause) := by
  obtain ⟨cause, hcause⟩ := jointAxes_of_not_fits h
  refine ⟨cause, ?_⟩
  rw [Interpreter.reduce, TensorLogic.reduce, join_eq, hcause]
  rfl

theorem sameOutcome_of_not_fits (h : ∀ extent, ¬ Fits output operands extent)
    (h' : ∀ extent, ¬ Fits output' operands' extent) :
    SameOutcome (truthValues.reduce agg output op operands).value
      (truthValues.reduce agg output' op operands').value := by
  obtain ⟨cause, hcause⟩ := reduce_of_not_fits agg op h
  obtain ⟨cause', hcause'⟩ := reduce_of_not_fits agg op h'
  rw [hcause, hcause']
  exact trivial

/-- Two contractions whose labels fit have one outcome if their buffers are alike and their
cells are the same. -/
theorem sameOutcome_of_fits (h : Fits output operands extent)
    (h' : Fits output' operands' extent')
    (hread : ∀ operand ∈ operands, operand.tensor.InBounds)
    (hread' : ∀ operand ∈ operands', operand.tensor.InBounds)
    (hop : op.accepts operands.length) (hop' : op.accepts operands'.length)
    (houter : output'.toList.map extent' = output.toList.map extent)
    (hjoint : (Request.whole ((jointLabels output' operands').map extent')).ask =
      (Request.whole ((jointLabels output operands).map extent)).ask)
    (hblock : (Request.block ((foldedLabels output' operands').map extent')).ask =
      (Request.block ((foldedLabels output operands).map extent)).ask)
    (hcell : ∀ index ∈ Shape.indices (output.toList.map extent), ∀ b,
      contractedCell output operands extent (fun cells => (truthValues.connect op cells).value)
          (fun cells => (truthValues.aggregate agg cells).value) index = .ok b →
        contractedCell output' operands' extent'
          (fun cells => (truthValues.connect op cells).value)
          (fun cells => (truthValues.aggregate agg cells).value) index = .ok b) :
    SameOutcome (truthValues.reduce agg output op operands).value
      (truthValues.reduce agg output' op operands').value := by
  have hbuffers :
      forM (contraction (output'.toList.map extent') ((foldedLabels output' operands').map extent'))
          Request.ask =
        forM (contraction (output.toList.map extent) ((foldedLabels output operands).map extent))
          Request.ask := by
    rw [jointLabels, jointLabels, List.map_append, List.map_append] at hjoint
    simp only [contraction, Tensor.folding, List.forM_cons]
    rw [hjoint, houter, hblock]
  refine .of_agree ((reduce_fits_demands h hread hop).agree (reduce_fits_demands h' hread' hop')
    hbuffers.symm fun r r' hr hr' _ _ => ?_)
  obtain ⟨hshape, hcells⟩ := reduce_sized (reduce_lifted hr) h.sized
  obtain ⟨hshape', hcells'⟩ := reduce_sized (reduce_lifted hr') h'.sized
  have hsame : r.shape = r'.shape := by rw [hshape, hshape', houter]
  refine Tensor.equal_eq_true_iff.mpr ⟨hsame, fun index hindex => ?_⟩
  obtain ⟨b, hget, hb⟩ := hcells index hindex
  obtain ⟨b', hget', hb'⟩ := hcells' index (hsame ▸ hindex)
  have hcontracted := hcell index (hshape ▸ hindex) b hb
  obtain rfl : b' = b := Except.ok.inj (hb'.symm.trans hcontracted)
  exact ⟨b', b', hget, hget', beq_self_eq_true b'⟩

variable (hop : op = .and ∨ op = .or)
include hop

theorem accepts_of_fits (h : Fits output operands extent) : op.accepts operands.length := by
  have hpos := List.length_pos_iff.mpr h.nonempty
  obtain rfl | rfl := hop <;> exact decide_eq_true hpos

theorem reduce_perm (hread : ∀ operand ∈ operands, operand.tensor.InBounds)
    (hword : FitsWord operands) (hperm : operands.Perm operands') :
    SameOutcome (truthValues.reduce agg output op operands).value
      (truthValues.reduce agg output op operands').value := by
  by_cases hfits : ∃ extent, Fits output operands extent
  · obtain ⟨extent, h⟩ := hfits
    have h' := h.perm hperm
    have hfolded : (foldedLabels output operands').Perm (foldedLabels output operands) :=
      (foldedLabels_perm hperm output).symm
    have hjoint : ((jointLabels output operands').map extent).Perm
        ((jointLabels output operands).map extent) := (hfolded.append_left _).map extent
    have hlt := h.nonzeroCells_lt hword
    have hlt' : Shape.nonzeroCells ((jointLabels output operands').map extent) < Word.bound := by
      rwa [Shape.nonzeroCells_perm hjoint]
    refine sameOutcome_of_fits h h' hread
      (fun operand hoperand => hread operand (hperm.mem_iff.mpr hoperand))
      (accepts_of_fits hop h) (accepts_of_fits hop h') rfl ?_
      (Request.block_ask_congr (Shape.cells_perm (hfolded.map extent))) fun index hindex b hb => ?_
    · exact (Shape.storable_of_nonzeroCells (.refl _) hlt').ask_eq
        (Shape.storable_of_nonzeroCells (.refl _) hlt) (Shape.cells_perm hjoint)
    · obtain ⟨ρ, rfl⟩ := exists_assignment h.nodup
        ((Shape.length_of_mem_indices hindex).trans (List.length_map _))
      exact contractedCell_perm hperm (connect_unordered hop) (aggregate_unordered agg) hb
  · have hnone := not_exists.mp hfits
    exact sameOutcome_of_not_fits hnone fun extent h' => hnone extent (h'.perm hperm.symm)

theorem reduce_relabel (hread : ∀ operand ∈ operands, operand.tensor.InBounds)
    {f : Char → Char} (hf : Function.Injective f) :
    SameOutcome (truthValues.reduce agg output op operands).value
      (truthValues.reduce agg (output.map f) op (operands.map (Labelled.relabel f))).value := by
  by_cases hfits : ∃ extent, Fits output operands extent
  · obtain ⟨extent, h⟩ := hfits
    -- extents for the new names; what they are at other characters does not matter
    have hback : (extent ∘ Function.invFun f) ∘ f = extent := by
      rw [Function.comp_assoc, Function.invFun_comp hf, Function.comp_id]
    have h' : Fits (output.map f) (operands.map (Labelled.relabel f))
        (extent ∘ Function.invFun f) := (fits_relabel hf).mpr (hback.symm ▸ h)
    refine sameOutcome_of_fits h h' hread (List.forall_mem_map.mpr hread)
      (accepts_of_fits hop h) (accepts_of_fits hop h') ?_ ?_ ?_ fun index _ b hb => ?_
    · rw [String.toList_map, List.map_map, hback]
    · rw [jointLabels_relabel hf, List.map_map, hback]
    · rw [foldedLabels_relabel hf, List.map_map, hback]
    · rw [contractedCell_relabel hf, hback]
      exact hb
  · have hnone := not_exists.mp hfits
    exact sameOutcome_of_not_fits hnone fun extent h' => hnone _ ((fits_relabel hf).mp h')

/-- Where the product of the extents is a word, nothing but memory can be missing for a
contraction whose labels fit. -/
theorem reduce_of_fits (h : Fits output operands extent)
    (hread : ∀ operand ∈ operands, operand.tensor.InBounds) (hword : FitsWord operands) :
    (Roomy output operands extent →
      ∃ r, (truthValues.reduce agg output op operands).value = .ok r) ∧
    (¬ Roomy output operands extent →
      ∃ n, (truthValues.reduce agg output op operands).value =
        .error (.trapped (.capacity n))) := by
  have hdemands : Demands (Tensor.Filled (output.toList.map extent))
      (truthValues.reduce agg output op operands).value
      (contraction (output.toList.map extent) ((foldedLabels output operands).map extent)) :=
    reduce_fits_demands h hread (accepts_of_fits hop h)
  have hlt := h.nonzeroCells_lt hword
  rw [jointLabels, List.map_append] at hlt
  have hasked : ∀ request ∈ contraction (output.toList.map extent)
      ((foldedLabels output operands).map extent),
      FailsBy (fun fault => ∃ n, fault = .trapped (.capacity n)) request.ask := by
    intro request hrequest
    obtain rfl | rfl | rfl := mem_contraction.mp hrequest
    · exact (Shape.storable_of_nonzeroCells (.refl _) hlt).ask_failsBy
    · exact Size.block_failsBy fun n => ⟨n, rfl⟩
    · exact (Shape.storable_of_nonzeroCells (List.sublist_append_left _ _) hlt).ask_failsBy
  constructor
  · intro hroom
    exact hdemands.returns_iff.mpr (roomy_iff.mp hroom)
  · intro hroom
    cases hvalue : (truthValues.reduce agg output op operands).value with
    | ok r => exact absurd (roomy_iff.mpr (hdemands.returns_iff.mp ⟨r, hvalue⟩)) hroom
    | error fault =>
        obtain ⟨n, rfl⟩ := hdemands.failsBy hasked fault hvalue
        exact ⟨n, rfl⟩

/-- The order of the operands and the names of the labels do not matter to a contraction by a
connective of any number of arguments: in another order, or with all labels renamed without
clashes, it is refused if it was before, and returns an equal tensor if it returned one before.
It is refused if its labels do not fit the operands. If they do, it returns a tensor where there
is memory for its buffers, and where there is not it traps at the first that is missing. -/
theorem reduce_relabelled (agg : Aggregate) (output : String)
    (hread : ∀ operand ∈ operands, operand.tensor.InBounds) (hword : FitsWord operands) :
    (∀ operands', operands.Perm operands' →
      SameOutcome (truthValues.reduce agg output op operands).value
        (truthValues.reduce agg output op operands').value) ∧
    (∀ f : Char → Char, Function.Injective f →
      SameOutcome (truthValues.reduce agg output op operands).value
        (truthValues.reduce agg (output.map f) op (operands.map (Labelled.relabel f))).value) ∧
    ((∀ extent, ¬ Fits output operands extent) →
      ∃ cause, (truthValues.reduce agg output op operands).value = .error (.refused cause)) ∧
    ∀ extent, Fits output operands extent →
      (Roomy output operands extent →
        ∃ r, (truthValues.reduce agg output op operands).value = .ok r) ∧
      (¬ Roomy output operands extent →
        ∃ n, (truthValues.reduce agg output op operands).value =
          .error (.trapped (.capacity n))) :=
  ⟨fun _ => reduce_perm hop hread hword, fun _ => reduce_relabel hop hread,
    reduce_of_not_fits agg op, fun _ h => reduce_of_fits hop h hread hword⟩

end Outcomes

theorem composed_inBounds : ∀ operand ∈ composed, operand.tensor.InBounds := by
  refine List.forall_mem_cons.mpr ⟨?_, List.forall_mem_singleton.mpr ?_⟩
  · exact ⟨rfl, by decide, by decide⟩
  · exact ⟨rfl, by decide, by decide⟩

theorem composed_fitsWord : FitsWord composed := by
  intro extent hsized
  have hx : 2 = extent 'x' := (List.cons.inj (hsized _ List.mem_cons_self)).1
  have hyz := hsized _ (List.mem_cons_of_mem _ List.mem_cons_self)
  have hletters : (composed.flatMap Labelled.letters).eraseDups = ['x', 'y', 'z'] := by decide
  have hshape : ['y', 'z'].map extent = [2, 2] := hyz.symm
  rw [hletters, List.map_cons, hshape, ← hx]
  decide

theorem fitsWord_vector {t : Tensor α} {n : Nat} (ht : t.shape = [n]) (hpos : 0 < n)
    (hn : n < Word.bound) : FitsWord [t.named "x"] := by
  intro extent hsized
  have hletters : (t.named "x").letters = ['x'] := by simp [Labelled.letters, Tensor.named]
  have hshape := hsized _ List.mem_cons_self
  rw [hletters] at hshape
  have hdups : ['x'].eraseDups = ['x'] := by decide
  rw [List.flatMap_singleton, hletters, hdups, ← hshape]
  change Shape.nonzeroCells t.shape < Word.bound
  rw [ht, Shape.nonzeroCells_cons hpos]
  simpa [Shape.nonzeroCells, Shape.cells] using hn

/-- One cell, repeated over half as many places as there are words. -/
def longVector : List (Labelled Bool) :=
  [(Tensor.constant [9223372036854775808] true).named "x"]

theorem longVector_inBounds : ∀ operand ∈ longVector, operand.tensor.InBounds :=
  List.forall_mem_singleton.mpr (Tensor.constant_spec _ _).1

/-- The extent of its one label is a word, but there is no memory for as many truth values: the
contraction neither refuses the vector nor returns a tensor, whatever is done with its one
operand. -/
theorem reduce_longVector :
    (∀ operand ∈ longVector, operand.tensor.InBounds) ∧ FitsWord longVector ∧
      ¬ ((∃ cause, (truthValues.reduce .all "" .and longVector).value =
          .error (.refused cause)) ∨
        ∃ r, (truthValues.reduce .all "" .and longVector).value = .ok r) := by
  have hrun : (truthValues.reduce .all "" .and longVector).value =
      .error (.trapped (.capacity 9223372036854775808)) := rfl
  refine ⟨longVector_inBounds, fitsWord_vector rfl (by decide) (by decide), ?_⟩
  rw [hrun]
  rintro (⟨cause, hcause⟩ | ⟨r, hr⟩)
  · cases hcause
  · cases hr

/-- The composite of two relations, with its operands exchanged and with two labels exchanged. -/
theorem reduce_relabelled_composed :
    (∃ r, (truthValues.reduce .one "xz" .and composed).value = .ok r) ∧
      SameOutcome (truthValues.reduce .one "xz" .and composed).value
        (truthValues.reduce .one "xz" .and composed.reverse).value ∧
      SameOutcome (truthValues.reduce .one "xz" .and composed).value
        (truthValues.reduce .one ("xz".map (Equiv.swap 'y' 'z')) .and
          (composed.map (Labelled.relabel (Equiv.swap 'y' 'z')))).value := by
  obtain ⟨hperm, hrename, -⟩ :=
    reduce_relabelled (.inl rfl) .one "xz" composed_inBounds composed_fitsWord
  exact ⟨⟨_, rfl⟩, hperm _ (List.reverse_perm composed).symm, hrename _ (Equiv.injective _)⟩

end Join

end TensorLogic
