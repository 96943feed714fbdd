import TensorLogic.Proofs.Constructible
import TensorLogic.Proofs.Overruns
import TensorLogic.Proofs.Truths
import TensorLogic.Proofs.Walk

/-!
# Folding in stages

Axes may be folded away by `all` or `any` in one go or in several: behind a contraction
the fold of trailing axes gives what the contraction without these labels gives, and two
folds after each other give what one fold of all their axes gives (`staged_folds`).

A quantifier only asks for one truth value among the cells of a block, and it does not matter
in which block of which stage that value is found. So the row-major order of the blocks never
comes into it: the index of a block is in front of the indices of the cells inside, and an
index of the one fold is such a pair of indices of the two. A block without cells contains
nothing, in the one fold and in the two.

A fold reads positions and not indices. It can therefore return for a tensor that is not in
bounds, as long as the positions it comes to are inside the buffer. `Tensor.stored` is the cell
at such a position, and what is said about folds that return is said about all tensors.
-/

namespace TensorLogic

variable {α β σ : Type}

/-! ## One fold -/

namespace Tensor

/-- The cell that the strides lead to. -/
def stored (t : Tensor α) (index : Index) : Except Fault α :=
  t.cellAt (t.offset + dot index t.strides)

section Outer

variable {t : Tensor α} {m : Tensor β} {j k : Nat} (h : m.shape = t.outerShape j)
include h

theorem rank_outer : m.rank = t.rank - j := by
  rw [rank, h, outerShape, List.length_take, rank]
  omega

theorem outerShape_outer : m.outerShape k = t.outerShape (j + k) := by
  have hmin : min (t.rank - j - k) (t.rank - j) = t.rank - (j + k) := by omega
  rw [outerShape, rank_outer h, h, outerShape, List.take_take, hmin, outerShape]

/-- The axes of two folds, in their order, are those of the one fold. -/
theorem innerShape_outer : m.innerShape k ++ t.innerShape j = t.innerShape (j + k) := by
  have hle : t.rank - j - k ≤ (t.shape.take (t.rank - j)).length := by
    rw [List.length_take, ← rank]
    omega
  rw [innerShape, rank_outer h, h, outerShape, innerShape,
    ← List.drop_append_of_le_length hle, List.take_append_drop, Nat.sub_sub, innerShape]

end Outer

/-- What a fold returns is in bounds, and each of its cells comes from the cells of a block. -/
theorem fold_stored [Cell α] [Cell β] {t : Tensor α} {axes : Nat} {f : List α → Run σ β}
    {r : Tensor β} {s s' : σ} (h : t.fold axes f s = .ok r s') :
    axes ≤ t.rank ∧ r.shape = t.outerShape axes ∧ r.InBounds ∧
      ∀ index ∈ r.shape.indices, ∃ block b, r.get index = .ok b ∧ Returns (f block) b ∧
        (t.innerShape axes).indices.mapM (fun j => t.stored (index ++ j)) = .ok block := by
  unfold fold at h
  split at h
  next => cases h
  next haxes =>
      obtain ⟨offsets, hoffsets, h⟩ := Run.lift_bind_eq_ok.mp h
      obtain ⟨_, -, h⟩ := Run.lift_bind_eq_ok.mp h
      obtain ⟨size, -, h⟩ := Run.lift_bind_eq_ok.mp h
      obtain ⟨_, -, h⟩ := Run.lift_bind_eq_ok.mp h
      obtain ⟨hshape, hbounds, hcells⟩ := fill_spec h
      refine ⟨by omega, hshape, hbounds, fun index hindex => ?_⟩
      rw [hshape] at hindex
      obtain ⟨b, hget, s₁, s₂, hcell⟩ := hcells index hindex
      obtain ⟨base, hbase, hcell⟩ := Run.lift_bind_eq_ok.mp hcell
      obtain ⟨block, hblock, hf⟩ := Run.lift_bind_eq_ok.mp hcell
      refine ⟨block, b, hget, ⟨s₁, s₂, hf⟩, ?_⟩
      rw [Tensor.block, blockOffsets_ok hoffsets, List.mapM_map, mapM_eq_ok] at hblock
      refine mapM_eq_ok.mpr (hblock.imp fun j b hread => ?_)
      obtain ⟨pos, hpos, hread⟩ := bind_eq_ok.mp hread
      rw [stored, dot_append_eq, length_outer hindex, ← Nat.add_assoc, ← Size.word_ok hbase,
        ← Size.word_ok hpos]
      exact hread

end Tensor

/-- Tensors of one shape are equal if they show one truth value at the same indices. -/
theorem equal_of_iff {r r' : Tensor Bool} (v : Bool) (hshape : r.shape = r'.shape)
    (h : ∀ index ∈ r.shape.indices,
      ∃ b b', r.get index = .ok b ∧ r'.get index = .ok b' ∧ (b = v ↔ b' = v)) :
    Tensor.equal r r' = .ok true := by
  refine Tensor.equal_eq_true_iff.mpr ⟨hshape, fun index hindex => ?_⟩
  obtain ⟨b, b', hget, hget', hiff⟩ := h index hindex
  exact ⟨b, b', hget, hget', beq_iff_eq.mpr (eq_of_eq_iff hiff)⟩

namespace Quantifies

variable {agg : Aggregate} {own : Connective} {v : Bool} (hq : Quantifies agg own v)
include hq

/-- A fold by a quantifier: a cell has the value looked for if some cell of its block has. -/
theorem fold_iff {t r : Tensor Bool} {axes : Nat}
    (h : (truthValues.fold agg axes t).value = .ok r) {index : Index}
    (hindex : index ∈ r.shape.indices) :
    ∃ b, r.get index = .ok b ∧
      (b = v ↔ ∃ j ∈ (t.innerShape axes).indices, t.stored (index ++ j) = .ok v) := by
  obtain ⟨-, -, -, hcells⟩ := Tensor.fold_stored (Run.value_eq_ok.mp h)
  obtain ⟨block, b, hget, ⟨s, s', haggregate⟩, hblock⟩ := hcells index hindex
  obtain ⟨hcomplete, hsound⟩ := exists_of_forall₂ (mapM_eq_ok.mp hblock)
  refine ⟨b, hget, ?_⟩
  rw [hq.aggregate_iff (Run.value_eq_ok.mpr haggregate)]
  constructor
  · intro hv
    exact hsound v hv
  · rintro ⟨j, hj, hstored⟩
    obtain ⟨x, hx, hcell⟩ := hcomplete j hj
    exact Except.ok.inj (hcell.symm.trans hstored) ▸ hx

/-- Over storage in bounds these are the cells at the indices of the block. -/
theorem fold_get_iff {t r : Tensor Bool} (ht : t.InBounds) {axes : Nat}
    (h : (truthValues.fold agg axes t).value = .ok r) {index : Index}
    (hindex : index ∈ r.shape.indices) :
    ∃ b, r.get index = .ok b ∧
      (b = v ↔ ∃ j ∈ (t.innerShape axes).indices, t.get (index ++ j) = .ok v) := by
  obtain ⟨b, hget, hb⟩ := hq.fold_iff h hindex
  obtain ⟨-, hshape, -, -⟩ := Tensor.fold_stored (Run.value_eq_ok.mp h)
  refine ⟨b, hget, hb.trans (exists_congr fun j => and_congr_right fun hj => ?_)⟩
  rw [ht.get_eq (Tensor.append_mem_indices (hshape ▸ hindex) hj)]
  rfl

/-! ## Two folds -/

theorem fold_fold {t m r r' : Tensor Bool} {j k : Nat}
    (hm : (truthValues.fold agg j t).value = .ok m)
    (hr : (truthValues.fold agg k m).value = .ok r)
    (hr' : (truthValues.fold agg (j + k) t).value = .ok r') : Tensor.equal r r' = .ok true := by
  obtain ⟨-, hmid, hbounds, -⟩ := Tensor.fold_stored (Run.value_eq_ok.mp hm)
  obtain ⟨-, hshape, -, -⟩ := Tensor.fold_stored (Run.value_eq_ok.mp hr)
  obtain ⟨-, hshape', -, -⟩ := Tensor.fold_stored (Run.value_eq_ok.mp hr')
  have hsame : r.shape = r'.shape := by rw [hshape, hshape', Tensor.outerShape_outer hmid]
  refine equal_of_iff v hsame fun index hindex => ?_
  obtain ⟨b, hget, hb⟩ := hq.fold_get_iff hbounds hr hindex
  obtain ⟨b', hget', hb'⟩ := hq.fold_iff hr' (hsame ▸ hindex)
  refine ⟨b, b', hget, hget', ?_⟩
  -- the cell of the first fold that the second one reads
  have hcell : ∀ i ∈ (m.innerShape k).indices, m.get (index ++ i) = .ok v ↔
      ∃ i' ∈ (t.innerShape j).indices, t.stored (index ++ i ++ i') = .ok v := by
    intro i hi
    obtain ⟨c, hc, hiff⟩ := hq.fold_iff hm (Tensor.append_mem_indices (hshape ▸ hindex) hi)
    rw [hc, Except.ok.injEq, hiff]
  rw [hb, hb', ← Tensor.innerShape_outer hmid]
  constructor
  · rintro ⟨i, hi, hget⟩
    obtain ⟨i', hi', hstored⟩ := (hcell i hi).mp hget
    rw [List.append_assoc] at hstored
    exact ⟨i ++ i', Shape.append_mem_indices hi hi', hstored⟩
  · rintro ⟨whole, hwhole, hstored⟩
    rw [Shape.indices_append] at hwhole
    obtain ⟨i, hi, hwhole⟩ := List.mem_flatMap.mp hwhole
    obtain ⟨i', hi', rfl⟩ := List.mem_map.mp hwhole
    rw [← List.append_assoc] at hstored
    exact ⟨i, hi, (hcell i hi).mpr ⟨i', hi', hstored⟩⟩

/-! ## A fold behind a contraction -/

section Contraction

variable {op : Connective} {output : String} {operands : List (Labelled Bool)}
  {m r r' : Tensor Bool} {extent ρ : Char → Nat}

/-- The block of a fold that is behind a contraction is what the contraction to fewer labels
quantifies over. -/
theorem exists_folded_iff (hm : (truthValues.reduce agg output op operands).value = .ok m)
    (hsized : Join.Sized extent operands) {front back : List Char}
    (houtput : output.toList = front ++ back) (hρ : Within extent front ρ) :
    (∃ j ∈ Shape.indices (back.map extent), m.get (front.map ρ ++ j) = .ok v) ↔
      ∃ π, Join.Extends (String.ofList front) operands extent ρ π ∧
        Join.combinedAt operands (fun cells => (truthValues.connect op cells).value) π =
          .ok v := by
  obtain ⟨hnodup, hknown⟩ := Join.output_of_reduce (reduce_lifted hm)
  constructor
  · rintro ⟨j, hj, hget⟩
    have hmem : front.map ρ ++ j ∈ Shape.indices (output.toList.map extent) := by
      rw [houtput, List.map_append]
      exact Shape.append_mem_indices (map_mem_indices.mpr hρ) hj
    obtain ⟨ρ', hρ'⟩ := exists_assignment hnodup
      ((Shape.length_of_mem_indices hmem).trans (List.length_map _))
    rw [← hρ', map_mem_indices] at hmem
    obtain ⟨b, hb, hiff⟩ := hq.reduce_combined_iff hm hsized hmem
    rw [hρ', hget] at hb
    obtain ⟨π, hπ, hcombined⟩ := hiff.mp (Except.ok.inj hb).symm
    rw [houtput, List.map_append] at hρ'
    have hfront := (List.append_inj hρ' (by simp)).1
    refine ⟨π, ⟨fun c hc => ?_, hπ.within⟩, hcombined⟩
    rw [String.toList_ofList] at hc
    rw [hπ.output_eq c (houtput ▸ List.mem_append_left _ hc)]
    exact List.map_inj_left.mp hfront c hc
  · rintro ⟨π, hπ, hcombined⟩
    have hwithin : Within extent output.toList π := by
      intro c hc
      obtain ⟨operand, hoperand, hletter⟩ := hknown c hc
      exact hπ.within operand hoperand c hletter
    obtain ⟨b, hb, hiff⟩ := hq.reduce_combined_iff hm hsized hwithin
    have hv : b = v := hiff.mpr ⟨π, ⟨fun _ _ => rfl, hπ.within⟩, hcombined⟩
    have hfront : front.map ρ = front.map π := by
      refine List.map_congr_left fun c hc => (hπ.output_eq c ?_).symm
      rwa [String.toList_ofList]
    refine ⟨back.map π, map_mem_indices.mpr fun c hc => ?_, ?_⟩
    · exact hwithin c (houtput ▸ List.mem_append_right _ hc)
    · rw [hfront, ← List.map_append, ← houtput, hb, hv]

theorem fold_reduce {k : Nat} (hm : (truthValues.reduce agg output op operands).value = .ok m)
    (hr : (truthValues.fold agg k m).value = .ok r)
    (hr' : (truthValues.reduce agg (String.ofList (output.toList.take (output.toList.length - k)))
      op operands).value = .ok r') : Tensor.equal r r' = .ok true := by
  obtain ⟨extent, hsized, -⟩ := Join.reduce_cells (reduce_lifted hm)
  have hbounds := Join.inBounds_of_reduce (reduce_lifted hm)
  have hmshape := (Join.reduce_sized (reduce_lifted hm) hsized).1
  have hshape' := (Join.reduce_sized (reduce_lifted hr') hsized).1
  obtain ⟨-, hshape, -, -⟩ := Tensor.fold_stored (Run.value_eq_ok.mp hr)
  have hrank : m.rank = output.toList.length := by
    rw [Tensor.rank, hmshape, List.length_map]
  have hinner : m.innerShape k =
      (output.toList.drop (output.toList.length - k)).map extent := by
    rw [Tensor.innerShape, hrank, hmshape, List.map_drop]
  rw [Tensor.outerShape, hrank, hmshape, ← List.map_take] at hshape
  have hnodup := (Join.output_of_reduce (reduce_lifted hr')).1
  have houtput := (List.take_append_drop (output.toList.length - k) output.toList).symm
  generalize output.toList.take (output.toList.length - k) = front at *
  generalize output.toList.drop (output.toList.length - k) = back at *
  refine equal_of_iff v (hshape.trans (hshape'.trans (by rw [String.toList_ofList])).symm)
    fun index hindex => ?_
  obtain ⟨b, hget, hb⟩ := hq.fold_get_iff hbounds hr hindex
  rw [hshape] at hindex
  rw [String.toList_ofList] at hnodup
  obtain ⟨ρ, rfl⟩ := exists_assignment hnodup
    ((Shape.length_of_mem_indices hindex).trans (List.length_map _))
  rw [map_mem_indices] at hindex
  obtain ⟨b', hget', hb'⟩ := hq.reduce_combined_iff hr' hsized
    (by rwa [String.toList_ofList])
  rw [String.toList_ofList] at hget'
  refine ⟨b, b', hget, hget', ?_⟩
  rw [hb, hb', hinner, hq.exists_folded_iff hm hsized houtput hindex]

end Contraction

end Quantifies

/-! ## Both -/

section Returns

variable {t : Tensor Bool} (ht : t.InBounds) {agg : Aggregate} {j k : Nat}
include ht

theorem fold_returns_iff (agg : Aggregate) (h : j ≤ t.rank) :
    (∃ r, (truthValues.fold agg j t).value = .ok r) ↔
      (t.innerShape j).Blockable Bool ∧ (t.outerShape j).Fillable Bool := by
  constructor
  · rintro ⟨r, hr⟩
    exact ⟨Tensor.blockable_of_fold ht (Run.value_eq_ok.mp hr),
      Tensor.fillable_of_fold (Run.value_eq_ok.mp hr)⟩
  · rintro ⟨hblock, hfill⟩
    obtain ⟨r, hr⟩ := Tensor.fold_returns (s := ()) ht h hblock hfill (aggregate_returns agg)
    simp only [Run.lift_value] at hr
    exact ⟨r, Run.value_eq_ok.mpr hr⟩

/-- Two folds return if there is room for the block that each of them reads and for what it
leaves. -/
theorem fold_fold_returns_iff (h : j + k ≤ t.rank) :
    (∃ m r, (truthValues.fold agg j t).value = .ok m ∧ (truthValues.fold agg k m).value = .ok r) ↔
      ((t.innerShape j).Blockable Bool ∧ (t.outerShape j).Fillable Bool) ∧
        Shape.Blockable ((t.outerShape j).drop (t.rank - (j + k))) Bool ∧
          (t.outerShape (j + k)).Fillable Bool := by
  have hinner : ∀ {m : Tensor Bool}, m.shape = t.outerShape j →
      (t.outerShape j).drop (t.rank - (j + k)) = m.innerShape k := by
    intro m hshape
    rw [Tensor.innerShape, Tensor.rank_outer hshape, hshape, Nat.sub_sub]
  constructor
  · rintro ⟨m, r, hm, hr⟩
    obtain ⟨-, hshape, hbounds, -⟩ := Tensor.fold_stored (Run.value_eq_ok.mp hm)
    obtain ⟨hrank, -⟩ := Tensor.fold_stored (Run.value_eq_ok.mp hr)
    rw [← Tensor.outerShape_outer hshape, hinner hshape]
    exact ⟨(fold_returns_iff ht agg (by omega)).mp ⟨m, hm⟩,
      (fold_returns_iff hbounds agg hrank).mp ⟨r, hr⟩⟩
  · rintro ⟨hmid, hlast⟩
    obtain ⟨m, hm⟩ := (fold_returns_iff ht agg (by omega)).mpr hmid
    obtain ⟨-, hshape, hbounds, -⟩ := Tensor.fold_stored (Run.value_eq_ok.mp hm)
    have hrank : k ≤ m.rank := by
      rw [Tensor.rank_outer hshape]
      omega
    rw [← Tensor.outerShape_outer hshape, hinner hshape] at hlast
    obtain ⟨r, hr⟩ := (fold_returns_iff hbounds agg hrank).mpr hlast
    exact ⟨m, r, hm, hr⟩

end Returns

/-- Trailing axes may be folded away by `all` or `any` in stages: behind a contraction the fold
of the last axes gives what the contraction without the last labels gives, and two folds give
what one fold of the axes of both gives. On tensors in bounds a fold returns unless there is no
room for the block that it reads or no buffer for what it leaves. -/
theorem staged_folds {agg : Aggregate} (hagg : agg = .all ∨ agg = .any) :
    (∀ (op : Connective) (output : String) (operands : List (Labelled Bool)) (k : Nat)
        (m r r' : Tensor Bool),
      (truthValues.reduce agg output op operands).value = .ok m →
      (truthValues.fold agg k m).value = .ok r →
      (truthValues.reduce agg
        (String.ofList (output.toList.take (output.toList.length - k))) op operands).value =
          .ok r' →
      Tensor.equal r r' = .ok true) ∧
    (∀ (t m r r' : Tensor Bool) (j k : Nat),
      (truthValues.fold agg j t).value = .ok m →
      (truthValues.fold agg k m).value = .ok r →
      (truthValues.fold agg (j + k) t).value = .ok r' →
      Tensor.equal r r' = .ok true) ∧
    ∀ (t : Tensor Bool) (j k : Nat), t.InBounds → j + k ≤ t.rank →
      ((∃ r, (truthValues.fold agg (j + k) t).value = .ok r) ↔
        (t.innerShape (j + k)).Blockable Bool ∧ (t.outerShape (j + k)).Fillable Bool) ∧
      ((∃ m r, (truthValues.fold agg j t).value = .ok m ∧
          (truthValues.fold agg k m).value = .ok r) ↔
        ((t.innerShape j).Blockable Bool ∧ (t.outerShape j).Fillable Bool) ∧
          Shape.Blockable ((t.outerShape j).drop (t.rank - (j + k))) Bool ∧
            (t.outerShape (j + k)).Fillable Bool) := by
  obtain ⟨own, v, hq⟩ : ∃ own v, Quantifies agg own v := by
    obtain rfl | rfl := hagg
    · exact ⟨_, _, .all⟩
    · exact ⟨_, _, .any⟩
  refine ⟨?_, ?_, ?_⟩
  · intro op output operands k m r r' hm hr hr'
    exact hq.fold_reduce hm hr hr'
  · intro t m r r' j k hm hr hr'
    exact hq.fold_fold hm hr hr'
  · intro t j k ht h
    exact ⟨fold_returns_iff ht agg h, fold_fold_returns_iff ht h⟩

/-- Two rows of no columns, each entry three cells deep. -/
def hollow : Tensor Bool :=
  { shape := [2, 0, 3], strides := [0, 3, 1], offset := 0, buffer := #[] }

theorem staged_folds_hollow :
    (∃ m r r',
      (truthValues.reduce .any "xz" .and Join.composed).value = .ok m ∧
      (truthValues.fold .any 1 m).value = .ok r ∧
      (truthValues.reduce .any (String.ofList ("xz".toList.take ("xz".toList.length - 1))) .and
        Join.composed).value = .ok r' ∧
      r.shape = [2] ∧ Tensor.equal r r' = .ok true) ∧
    ∃ m r r',
      (truthValues.fold .all 1 hollow).value = .ok m ∧
      (truthValues.fold .all 1 m).value = .ok r ∧
      (truthValues.fold .all (1 + 1) hollow).value = .ok r' ∧
      r.shape = [2] ∧ Tensor.equal r r' = .ok true ∧
      (hollow.innerShape 1).Blockable Bool ∧ (hollow.outerShape 1).Fillable Bool := by
  obtain ⟨hcontracted, -, -⟩ := staged_folds (.inr rfl)
  obtain ⟨-, hfolded, hreturns⟩ := staged_folds (.inl rfl)
  have hhollow : hollow.InBounds := ⟨rfl, by decide, by decide⟩
  refine ⟨⟨_, _, _, rfl, rfl, rfl, rfl,
    hcontracted .and "xz" Join.composed 1 _ _ _ rfl rfl rfl⟩, ?_⟩
  refine ⟨_, _, _, rfl, rfl, rfl, rfl, hfolded hollow _ _ _ 1 1 rfl rfl rfl, ?_⟩
  exact ((hreturns hollow 1 1 hhollow (by decide)).2.mp ⟨_, _, rfl, rfl⟩).1

end TensorLogic
