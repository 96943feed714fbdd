import TensorLogic.Proofs.Agreement
import TensorLogic.Proofs.Storage
import TensorLogic.Tensor.View

/-!
# What a view shows

A reshaped tensor reads the source at the index that takes each named axis'
coordinate and is 0 at every other axis, provided no source axis is named twice
(`reshape_spec`); a slice reads the source with one more coordinate behind
(`slice_spec`). Both keep storage in bounds, and whether they are granted depends
on the shape alone.

The source index is built by setting coordinates one target axis after the
other. That is what makes the repetition matter: a second mention of an axis
would overwrite a coordinate, whereas the strides of the view add up.
-/

namespace TensorLogic

/-- The source axes that a list of target axes names. -/
def Axis.sources (axes : List Axis) : List Nat :=
  axes.filterMap fun
    | .source axis => some axis
    | .broadcast => none

namespace Shape

theorem cells_eq_zero_iff {shape : Shape} : cells shape = 0 ↔ 0 ∈ shape := by
  rw [← length_indices, List.length_eq_zero_iff, indices_eq_nil_iff]

end Shape

namespace Tensor

variable {α β : Type}

/-- The stride that a target axis inherits. -/
def strideOf (t : Tensor α) : Axis → Nat
  | .broadcast => 0
  | .source axis => t.strides[axis]?.getD 0

/-- Where a view of `rank` source axes reads: each named axis takes its
coordinate, the first time it is named, and all others stay at 0. -/
def sourceIndex (rank : Nat) : List Axis → Index → Index
  | .source axis :: axes, i :: index => (sourceIndex rank axes index).set axis i
  | .broadcast :: axes, _ :: index => sourceIndex rank axes index
  | _, _ => List.replicate rank 0

/-- A source axis has the extent of the target axis that names it. -/
def KeepsExtent (shape : Shape) (axis : Axis) (extent : Nat) : Prop :=
  ∀ source, axis = .source source → shape[source]? = some extent

theorem axisStride_ok {t : Tensor α} {target : Shape} {extent stride : Nat} {axis : Axis}
    (h : t.axisStride target extent axis = .ok stride) :
    stride = t.strideOf axis ∧ KeepsExtent t.shape axis extent := by
  cases axis with
  | broadcast =>
      cases h
      exact ⟨rfl, fun source hsource => by cases hsource⟩
  | source axis =>
      simp only [axisStride] at h
      split at h
      next => cases h
      next n hn =>
          split at h
          next heq =>
              cases h
              refine ⟨rfl, fun source hsource => ?_⟩
              cases hsource
              rw [hn, heq]
          next => cases h

theorem axisStrides_ok {t : Tensor α} {target extents : Shape} {axes : List Axis}
    {strides : List Nat} (hlen : extents.length = axes.length)
    (h : t.axisStrides target extents axes = .ok strides) :
    strides = axes.map t.strideOf ∧ List.Forall₂ (KeepsExtent t.shape) axes extents := by
  induction extents generalizing axes strides with
  | nil =>
      cases List.eq_nil_of_length_eq_zero hlen.symm
      cases h
      exact ⟨rfl, .nil⟩
  | cons extent extents ih =>
      match axes, hlen with
      | axis :: axes, hlen =>
          rw [axisStrides] at h
          simp only [bind_eq_ok] at h
          obtain ⟨stride, hstride, rest, hrest, h⟩ := h
          cases h
          obtain ⟨rfl, hkeep⟩ := axisStride_ok hstride
          obtain ⟨rfl, hkeeps⟩ := ih (Nat.succ.inj hlen) hrest
          exact ⟨rfl, .cons hkeep hkeeps⟩

theorem reshape_ok {t r : Tensor α} {target : Shape} {axes : List Axis}
    (h : t.reshape target axes = .ok r) :
    r = { t with shape := target, strides := axes.map t.strideOf } ∧
      List.Forall₂ (KeepsExtent t.shape) axes target ∧ (0 ∈ t.shape → 0 ∈ target) := by
  unfold reshape at h
  split at h
  · cases h
  next hlen =>
    simp only [bind_eq_ok] at h
    obtain ⟨size, hsize, strides, hstrides, empty, hempty, h⟩ := h
    obtain ⟨rfl, hkeeps⟩ := axisStrides_ok (by simpa using hlen) hstrides
    split at h
    · cases h
    next hnot =>
      cases h
      refine ⟨rfl, hkeeps, fun hzero => ?_⟩
      obtain ⟨n, hn, hempty⟩ := bind_eq_ok.mp hempty
      cases hempty
      obtain ⟨hcells, -, -⟩ := Size.checked_ok hsize
      obtain ⟨hsource, -⟩ := Size.plain_ok hn
      rw [Shape.cells_eq_zero_iff.mpr hzero] at hsource
      rw [← Shape.cells_eq_zero_iff, ← hcells]
      simpa [hsource] using hnot

/-! ## The source index -/

theorem length_sourceIndex (rank : Nat) (axes : List Axis) (index : Index) :
    (sourceIndex rank axes index).length = rank := by
  fun_induction sourceIndex rank axes index with
  | case1 axis axes i index ih => rw [List.length_set, ih]
  | case2 axes i index ih => exact ih
  | case3 => exact List.length_replicate

theorem sourceIndex_unnamed {rank source : Nat} {axes : List Axis} {index : Index}
    (hsource : source < rank) (hnot : source ∉ Axis.sources axes) :
    (sourceIndex rank axes index)[source]? = some 0 := by
  fun_induction sourceIndex rank axes index with
  | case1 axis axes i index ih =>
      simp only [Axis.sources, List.filterMap_cons, List.mem_cons, not_or] at hnot
      rw [List.getElem?_set_ne (Ne.symm hnot.1)]
      exact ih hnot.2
  | case2 axes i index ih => exact ih (by simpa [Axis.sources] using hnot)
  | case3 => simp [hsource]

/-- What holds of 0 and of every coordinate of the view holds of every coordinate
at the source. -/
theorem sourceIndex_forall₂ {R : Nat → Nat → Prop} {shape target : Shape}
    {axes : List Axis} {index : Index} (hzero : ∀ n ∈ shape, R 0 n)
    (hkeeps : List.Forall₂ (KeepsExtent shape) axes target)
    (h : List.Forall₂ R index target) :
    List.Forall₂ R (sourceIndex shape.length axes index) shape := by
  induction hkeeps generalizing index with
  | nil =>
      cases h
      simp only [sourceIndex]
      rw [List.forall₂_iff_get]
      refine ⟨List.length_replicate, fun k hk hk' => ?_⟩
      simpa using hzero _ (List.getElem_mem hk')
  | @cons axis extent axes target hkeep _ ih =>
      obtain _ | ⟨hi, hrest⟩ := h
      cases axis with
      | broadcast => exact ih hrest
      | source axis =>
          have hextent := hkeep axis rfl
          have hbehind := ih hrest
          rw [sourceIndex, List.forall₂_iff_get]
          refine ⟨by rw [List.length_set, length_sourceIndex], fun k hk hk' => ?_⟩
          by_cases haxis : axis = k
          · subst haxis
            obtain ⟨_, hget⟩ := List.getElem?_eq_some_iff.mp hextent
            simpa [hget] using hi
          · have := (List.forall₂_iff_get.mp hbehind).2 k
              (by simpa [length_sourceIndex] using hk') hk'
            simpa [List.getElem_set_ne haxis] using this

theorem dot_set {index : Index} {strides : List Nat} {axis i : Nat}
    (h : index[axis]? = some 0) (hlen : strides.length = index.length) :
    dot (index.set axis i) strides = dot index strides + i * strides[axis]?.getD 0 := by
  induction index generalizing strides axis with
  | nil => cases h
  | cons j index ih =>
      match strides, hlen with
      | s :: strides, hlen =>
          cases axis with
          | zero =>
              simp only [List.getElem?_cons_zero, Option.some.injEq] at h
              subst h
              simp [dot, Nat.add_comm]
          | succ axis =>
              rw [List.getElem?_cons_succ] at h
              simp only [List.set_cons_succ, dot, ih h (Nat.succ.inj hlen),
                List.getElem?_cons_succ, Nat.add_assoc]

/-- Strides of axes named once add up to the position of the source index. -/
theorem dot_sourceIndex {t : Tensor α} (hlen : t.strides.length = t.shape.length)
    {target : Shape} {axes : List Axis} {index : Index}
    (hkeeps : List.Forall₂ (KeepsExtent t.shape) axes target)
    (honce : (Axis.sources axes).Nodup) (hrank : index.length = axes.length) :
    dot index (axes.map t.strideOf) =
      dot (sourceIndex t.shape.length axes index) t.strides := by
  induction hkeeps generalizing index with
  | nil =>
      cases List.eq_nil_of_length_eq_zero hrank
      simp [sourceIndex, dot, dot_replicate_zero]
  | @cons axis extent axes target hkeep _ ih =>
      obtain ⟨i, index, rfl⟩ := List.exists_cons_of_length_eq_add_one hrank
      have hrest := @ih index
      cases axis with
      | broadcast =>
          simp only [List.map_cons, dot, strideOf, Nat.mul_zero, Nat.zero_add, sourceIndex]
          exact hrest (by simpa [Axis.sources] using honce) (Nat.succ.inj hrank)
      | source axis =>
          simp only [Axis.sources, List.filterMap_cons, List.nodup_cons] at honce
          have haxis : axis < t.shape.length :=
            (List.getElem?_eq_some_iff.mp (hkeep axis rfl)).1
          have hzero : (sourceIndex t.shape.length axes index)[axis]? = some 0 :=
            sourceIndex_unnamed haxis honce.1
          simp only [List.map_cons, dot, strideOf, sourceIndex]
          rw [dot_set hzero (by rw [length_sourceIndex, hlen]),
            hrest honce.2 (Nat.succ.inj hrank), Nat.add_comm]

/-- The source index of an index of the view is an index of the source. -/
theorem sourceIndex_mem {shape target : Shape} {axes : List Axis} {index : Index}
    (hkeeps : List.Forall₂ (KeepsExtent shape) axes target)
    (hempty : 0 ∈ shape → 0 ∈ target) (hindex : index ∈ target.indices) :
    sourceIndex shape.length axes index ∈ shape.indices := by
  have hzero : 0 ∉ shape := fun hzero => by
    rw [Shape.indices_eq_nil_iff.mpr (hempty hzero)] at hindex
    cases hindex
  rw [Shape.mem_indices]
  refine sourceIndex_forall₂ (fun n hn => ?_) hkeeps (Shape.mem_indices.mp hindex)
  exact Nat.pos_of_ne_zero fun hn0 => hzero (hn0 ▸ hn)

/-- A reshape that names each source axis at most once reads the source index. -/
theorem reshape_spec {t r : Tensor α} (ht : t.InBounds) {target : Shape}
    {axes : List Axis} (honce : (Axis.sources axes).Nodup)
    (h : t.reshape target axes = .ok r) :
    r.shape = target ∧ r.InBounds ∧ ∀ index ∈ target.indices,
      sourceIndex t.shape.length axes index ∈ t.shape.indices ∧
        r.get index = t.get (sourceIndex t.shape.length axes index) := by
  obtain ⟨rfl, hkeeps, hempty⟩ := reshape_ok h
  have hlen := hkeeps.length_eq
  have hsource : ∀ index ∈ target.indices,
      sourceIndex t.shape.length axes index ∈ t.shape.indices :=
    fun index hindex => sourceIndex_mem hkeeps hempty hindex
  have hdot : ∀ index : Index, index.length = axes.length →
      dot index (axes.map t.strideOf) =
        dot (sourceIndex t.shape.length axes index) t.strides :=
    fun index hrank => dot_sourceIndex ht.strides_length hkeeps honce hrank
  have hrank : ∀ index ∈ target.indices, index.length = axes.length :=
    fun index hindex => (Shape.length_of_mem_indices hindex).trans hlen.symm
  have hr : InBounds { t with shape := target, strides := axes.map t.strideOf } := by
    refine ⟨by simpa using hlen, fun index hindex => ?_, ?_⟩
    · simp only [hdot index (hrank index hindex)]
      exact ht.inside _ (hsource index hindex)
    · have hreach : reach target (axes.map t.strideOf) ≤ reach t.shape t.strides := by
        rw [reach, hdot _ (by simpa using hlen.symm)]
        refine dot_le_dot ?_ _
        rw [List.forall₂_map_right_iff]
        refine sourceIndex_forall₂ (fun n _ => Nat.zero_le _) hkeeps ?_
        rw [List.forall₂_map_left_iff, List.forall₂_same]
        exact fun n _ => Nat.le_refl _
      have := ht.reach_lt
      simp only
      omega
  refine ⟨rfl, hr, fun index hindex => ⟨hsource index hindex, ?_⟩⟩
  rw [hr.get_eq hindex, ht.get_eq (hsource index hindex)]
  simp only [hdot index (hrank index hindex)]
  rfl

/-- Whether a reshape is granted depends on the shape alone. -/
theorem reshape_agree {t : Tensor α} {u : Tensor β} (h : t.shape = u.shape)
    (target : Shape) (axes : List Axis) :
    Agree (fun _ _ => True) (t.reshape target axes) (u.reshape target axes) := by
  have hstride : ∀ extent axis,
      Agree (fun _ _ => True) (t.axisStride target extent axis)
        (u.axisStride target extent axis) := by
    intro extent axis
    cases axis with
    | broadcast => exact trivial
    | source axis =>
        simp only [axisStride, rank, ← h]
        split
        · exact rfl
        · split
          · exact trivial
          · exact rfl
  have hstrides : ∀ extents axes,
      Agree (fun _ _ => True) (t.axisStrides target extents axes)
        (u.axisStrides target extents axes) := by
    intro extents
    induction extents with
    | nil => intro axes; exact trivial
    | cons extent extents ih =>
        intro axes
        cases axes with
        | nil => exact trivial
        | cons axis axes =>
            exact (hstride extent axis).bind fun _ _ _ =>
              (ih axes).bind fun _ _ _ => trivial
  unfold reshape
  split
  · exact rfl
  · refine Agree.bind_left fun size _ => (hstrides target axes).bind fun _ _ _ => ?_
    simp only [isEmpty, Tensor.size, ← h, bind_assoc, pure_bind]
    refine Agree.bind_left fun empty _ => ?_
    split
    · exact rfl
    · exact trivial

/-! ## Slices -/

/-- The view that `unconcat` gives at coordinate `k` of the trailing axis. -/
def slice (t : Tensor α) (k : Nat) : Tensor α :=
  { t with
    shape := t.shape.dropLast
    strides := t.strides.dropLast
    offset := t.offset + k * t.strides.getLastD 0 }

/-- The trailing axis takes its own part in the farthest position. -/
theorem reach_dropLast {t : Tensor α} (hlen : t.strides.length = t.shape.length)
    {front : Shape} {extent : Nat} (hshape : t.shape = front ++ [extent]) :
    reach t.shape.dropLast t.strides.dropLast + (extent - 1) * t.strides.getLastD 0 =
      reach t.shape t.strides := by
  obtain ⟨behind, stride, hstrides⟩ : ∃ behind stride, t.strides = behind ++ [stride] := by
    refine (List.eq_nil_or_concat' t.strides).resolve_left fun hnil => ?_
    rw [hnil, hshape] at hlen
    simp at hlen
  have hsame : front.length = behind.length := by
    simpa [hshape, hstrides] using hlen.symm
  rw [hshape, hstrides, List.dropLast_concat, List.dropLast_concat, reach, reach,
    List.map_append, dot_append (by simpa using hsame)]
  simp [dot, List.getLastD_eq_getLast?]

/-- With storage in bounds no offset leaves the word, so `unconcat` is refused or
trapped for its shape only. -/
theorem unconcat_eq {t : Tensor α} (ht : t.InBounds) :
    t.unconcat =
      match t.shape.getLast? with
      | none => refuse .scalarUnconcat
      | some extent => Size.reserve extent viewWidth >>= fun _ =>
          .ok ((List.range extent).map t.slice) := by
  have hlen := ht.strides_length
  have hreach := ht.reach_lt
  unfold unconcat
  cases hshape : t.shape.getLast? with
  | none => rfl
  | some extent =>
      cases hstrides : t.strides.getLast? with
      | none =>
          rw [List.getLast?_eq_none_iff] at hstrides
          rw [hstrides] at hlen
          cases List.eq_nil_of_length_eq_zero hlen.symm ▸ hshape
      | some stride =>
          obtain ⟨front, hfront⟩ := List.getLast?_eq_some_iff.mp hshape
          have hlast : t.strides.getLastD 0 = stride := by
            rw [List.getLastD_eq_getLast?, hstrides]
            rfl
          rw [← reach_dropLast hlen hfront, hlast] at hreach
          refine congrArg (Size.reserve extent viewWidth >>= ·) (funext fun _ => ?_)
          rw [Shape.mapM_congr (g := fun k => .ok (t.slice k)) fun k hk => ?_]
          · exact List.mapM_pure
          · have hk : k ≤ extent - 1 := by
              have := List.mem_range.mp hk
              omega
            have := Nat.mul_le_mul_right stride hk
            rw [Word.check, if_pos (by omega)]
            simp only [slice, hlast]
            rfl

/-- Whatever its storage is, a tensor comes apart into its slices. -/
theorem unconcat_ok {t : Tensor α} {parts : List (Tensor α)} (h : t.unconcat = .ok parts)
    {front : Shape} {extent : Nat} (hshape : t.shape = front ++ [extent]) :
    parts = (List.range extent).map t.slice := by
  unfold unconcat at h
  split at h
  next extent' stride hextent hstride =>
    rw [hshape, List.getLast?_concat, Option.some.injEq] at hextent
    subst hextent
    obtain ⟨_, -, h⟩ := bind_eq_ok.mp h
    have hslices : List.Forall₂ (fun k part => t.slice k = part) _ parts :=
      (mapM_eq_ok.mp h).imp fun k part hpart => by
        obtain ⟨offset, hoffset, hview⟩ := bind_eq_ok.mp hpart
        cases hview
        rw [slice, Size.word_ok hoffset, List.getLastD_eq_getLast?, hstride, Option.getD_some]
    rw [← List.forall₂_map_left_iff, List.forall₂_eq_eq_eq] at hslices
    exact hslices.symm
  · cases h

theorem slice_eq {t : Tensor α} (hlen : t.strides.length = t.shape.length) {extent k : Nat}
    (hlast : t.shape.getLast? = some extent) (hk : k < extent) :
    (t.slice k).strides.length = (t.slice k).shape.length ∧
      ∀ index ∈ (t.slice k).shape.indices, index ++ [k] ∈ t.shape.indices ∧
        (t.slice k).offset + dot index (t.slice k).strides =
          t.offset + dot (index ++ [k]) t.strides := by
  obtain ⟨front, hfront⟩ := List.getLast?_eq_some_iff.mp hlast
  obtain ⟨behind, stride, hbehind⟩ : ∃ behind stride, t.strides = behind ++ [stride] := by
    refine (List.eq_nil_or_concat' t.strides).resolve_left fun hnil => ?_
    rw [hnil, hfront] at hlen
    simp at hlen
  have hsame : front.length = behind.length := by
    simpa [hfront, hbehind] using hlen.symm
  have hview : t.slice k =
      { t with shape := front, strides := behind, offset := t.offset + k * stride } := by
    simp [slice, hfront, hbehind, List.getLastD_eq_getLast?]
  rw [hview]
  refine ⟨hsame.symm, fun index hindex => ⟨?_, ?_⟩⟩
  · rw [hfront]
    exact Shape.mem_indices_concat.mpr ⟨index, hindex, k, hk, rfl⟩
  · rw [hbehind, dot_append ((Shape.length_of_mem_indices hindex).trans hsame)]
    simp only [dot]
    omega

theorem slice_spec {t : Tensor α} (ht : t.InBounds) {extent k : Nat}
    (hlast : t.shape.getLast? = some extent) (hk : k < extent) :
    (t.slice k).shape = t.shape.dropLast ∧ (t.slice k).InBounds ∧
      ∀ index ∈ Shape.indices t.shape.dropLast,
        index ++ [k] ∈ t.shape.indices ∧ (t.slice k).get index = t.get (index ++ [k]) := by
  obtain ⟨hlen, hslice⟩ := slice_eq ht.strides_length hlast hk
  have hbounds : (t.slice k).InBounds := by
    refine ⟨hlen, fun index hindex => ?_, ?_⟩
    · obtain ⟨hmem, hdot⟩ := hslice index hindex
      rw [hdot]
      exact ht.inside _ hmem
    · obtain ⟨front, hfront⟩ := List.getLast?_eq_some_iff.mp hlast
      have hreach := ht.reach_lt
      rw [← reach_dropLast ht.strides_length hfront] at hreach
      have := Nat.mul_le_mul_right (t.strides.getLastD 0) (show k ≤ extent - 1 by omega)
      simp only [slice]
      omega
  refine ⟨rfl, hbounds, fun index hindex => ?_⟩
  obtain ⟨hmem, hdot⟩ := hslice index hindex
  refine ⟨hmem, ?_⟩
  rw [hbounds.get_eq hindex, ht.get_eq hmem, hdot]
  rfl

section Trailing

variable {t : Tensor α} {front : Shape} {extent : Nat}

theorem unconcat_reserve (ht : t.InBounds) (hshape : t.shape = front ++ [extent]) :
    t.unconcat =
      (Size.reserve extent viewWidth >>= fun _ => .ok ((List.range extent).map t.slice)) := by
  rw [unconcat_eq ht, hshape, List.getLast?_concat]

/-- Where the trailing axis is split off, a slice has the shape and the cells in front of it. -/
theorem slice_cells (ht : t.InBounds) (hshape : t.shape = front ++ [extent]) {k : Nat}
    (hk : k < extent) :
    (t.slice k).shape = front ∧ (t.slice k).InBounds ∧
      ∀ index ∈ front.indices, (t.slice k).get index = t.get (index ++ [k]) := by
  have hlast : t.shape.getLast? = some extent := by rw [hshape, List.getLast?_concat]
  obtain ⟨hslice, hbounds, hcell⟩ := slice_spec ht hlast hk
  rw [hshape, List.dropLast_concat] at hslice hcell
  exact ⟨hslice, hbounds, fun index hindex => (hcell index hindex).2⟩

end Trailing

end Tensor

end TensorLogic
