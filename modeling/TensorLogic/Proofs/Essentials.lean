import Mathlib.Data.List.Nodup
import TensorLogic.Proofs.Comparisons
import TensorLogic.Proofs.Defaults
import TensorLogic.Proofs.PredicateDemands
import TensorLogic.Relation.Essential

/-!
# Essential relations and operations

Both predicates contract a tensor along one axis after the other, whatever the number of
axes is. Such a contraction forgets one coordinate of a tuple, so the block behind one of
its cells is made of the tuple with this coordinate changed in every way (`along_cells`).
Over the letters of the axes all tuples are assignments, and the tuple with one coordinate
left out is the same assignment to one letter less.

A shadow therefore holds at a tuple if some change of its coordinate lands in the relation
(`shadows_spec`), and what the last contraction looks for is one tuple for all shadows. An
argument is ignored if no change of its coordinate makes a difference to the graph
(`ignoredArguments_spec`). Of a graph of a function that is a difference in the value.
-/

namespace TensorLogic.Relation

variable {t r : Tensor Bool} {labels : List Char} {extent ρ : Char → Nat} {axis n : Nat}
  {agg : Aggregate} {shape : Shape}

/-! ## One axis -/

theorem without_ofList (labels : List Char) (axis : Nat) :
    without (String.ofList labels) axis = String.ofList (labels.eraseIdx axis) := by
  rw [without, String.toList_ofList]

theorem axisLabels_eq_ok {subject : Subject} {rank least : Nat} {names : String}
    (h : axisLabels subject rank least = .ok names) :
    least ≤ rank ∧ rank ≤ 26 ∧ names = String.ofList (letters.take rank) := by
  rw [axisLabels] at h
  split at h
  next hrank => exact ⟨hrank.1, hrank.2, (Except.ok.inj h).symm⟩
  next => cases h

theorem sized_along (ht : t.shape = labels.map extent) :
    Join.Sized extent [t.named (String.ofList labels)] :=
  List.forall_mem_singleton.mpr ((letters_named t labels).symm ▸ ht)

theorem along_shape (ht : t.shape = labels.map extent)
    (h : (truthValues.reduce agg (String.ofList (labels.eraseIdx axis)) .id
      [t.named (String.ofList labels)]).value = .ok r) :
    r.shape = (labels.eraseIdx axis).map extent := by
  rw [(Join.reduce_sized (reduce_lifted h) (sized_along ht)).1, String.toList_ofList]

section Along

variable (hnodup : labels.Nodup) (haxis : axis < labels.length)
include hnodup haxis

/-- Changing one coordinate of a tuple is changing the assignment to one letter. -/
theorem map_set (v : Nat) :
    (labels.map ρ).set axis v = labels.map (Function.update ρ labels[axis] v) := by
  rw [hnodup.map_update, if_pos (List.getElem_mem haxis), hnodup.idxOf_getElem]

theorem within_update (hρ : Within extent (labels.eraseIdx axis) ρ) {v : Nat}
    (hv : v < extent labels[axis]) :
    Within extent labels (Function.update ρ labels[axis] v) := by
  intro c hc
  by_cases hceq : c = labels[axis]
  · rw [hceq, Function.update_self]
    exact hv
  · rw [Function.update_of_ne hceq]
    exact hρ c ((mem_eraseIdx_of_nodup hnodup haxis).mpr ⟨hc, hceq⟩)

/-- The block behind a cell, if one axis is contracted. -/
theorem along_cells (ht : t.shape = labels.map extent)
    (h : (truthValues.reduce agg (String.ofList (labels.eraseIdx axis)) .id
      [t.named (String.ofList labels)]).value = .ok r)
    (hρ : Within extent (labels.eraseIdx axis) ρ) :
    ∃ block b, r.get ((labels.eraseIdx axis).map ρ) = .ok b ∧
      (truthValues.aggregate agg block).value = .ok b ∧
      (∀ x ∈ block, ∃ v < extent labels[axis], t.get ((labels.map ρ).set axis v) = .ok x) ∧
      ∀ v < extent labels[axis], ∃ x ∈ block, t.get ((labels.map ρ).set axis v) = .ok x := by
  have hmem := @mem_eraseIdx_of_nodup labels axis hnodup haxis
  obtain ⟨block, b, hget, haggregate, hsound, hcomplete⟩ :=
    reduce_single h (sized_along ht) (by rwa [String.toList_ofList])
  rw [String.toList_ofList] at hget
  simp only [cellAt_named] at hsound hcomplete
  refine ⟨block, b, hget, haggregate, fun x hx => ?_, fun v hv => ?_⟩
  · obtain ⟨π, hπ, hcell⟩ := hsound x hx
    have hwithin := hπ.within _ (List.mem_singleton_self _)
    rw [letters_named] at hwithin
    refine ⟨π labels[axis], hwithin _ (List.getElem_mem haxis), ?_⟩
    rw [map_set hnodup haxis, ← hcell]
    refine congrArg t.get (List.map_congr_left fun c hc => ?_)
    by_cases hceq : c = labels[axis]
    · rw [hceq, Function.update_self]
    · rw [Function.update_of_ne hceq]
      exact (hπ.output_eq c (by rw [String.toList_ofList]; exact hmem.mpr ⟨hc, hceq⟩)).symm
  · rw [map_set hnodup haxis]
    refine hcomplete _ ⟨fun c hc => ?_, List.forall_mem_singleton.mpr ?_⟩
    · rw [String.toList_ofList] at hc
      exact Function.update_of_ne (hmem.mp hc).2 _ _
    · rw [letters_named]
      exact within_update hnodup haxis hρ hv

end Along

/-! ## Relations -/

/-- What remains of a relation if one axis is forgotten. -/
structure ShadowOf (t : Tensor Bool) (labels : List Char) (extent : Char → Nat) (axis : Nat)
    (part : Labelled Bool) : Prop where
  letters_eq : part.letters = labels.eraseIdx axis
  shape_eq : part.tensor.shape = part.letters.map extent
  holds_iff {ρ : Char → Nat} : Within extent labels ρ →
    (part.cellAt ρ = .ok true ↔ ∃ v < (labels.map extent).getD axis 0,
      t.get ((labels.map ρ).set axis v) = .ok true)

theorem within_eraseIdx (h : Within extent labels ρ) : Within extent (labels.eraseIdx axis) ρ :=
  fun c hc => h c (List.mem_of_mem_eraseIdx hc)

theorem getD_extent (haxis : axis < labels.length) :
    (labels.map extent).getD axis 0 = extent labels[axis] := by
  rw [List.getD_eq_getElem _ _ (by rwa [List.length_map]), List.getElem_map]

theorem shadows_spec (hnodup : labels.Nodup) (ht : t.shape = labels.map extent)
    {axes : List Nat} (haxes : ∀ axis ∈ axes, axis < labels.length) {parts : List (Labelled Bool)}
    (h : (shadows truthValues t (String.ofList labels) axes).value = .ok parts) :
    List.Forall₂ (ShadowOf t labels extent) axes parts := by
  induction axes generalizing parts with
  | nil =>
      cases h
      exact .nil
  | cons axis rest ih =>
      obtain ⟨haxis, hrest⟩ := List.forall_mem_cons.mp haxes
      obtain ⟨shadow, s, hshadow, h⟩ := Run.bind_eq_ok.mp (Run.value_eq_ok.mp h)
      obtain ⟨others, s', hothers, h⟩ := Run.bind_eq_ok.mp h
      cases h
      rw [without_ofList] at hshadow
      refine .cons ⟨?_, ?_, fun {ρ} hρ => ?_⟩ (ih hrest (Run.value_eq_ok.mpr hothers))
      · rw [without_ofList, letters_named]
      · rw [without_ofList, letters_named]
        exact along_shape ht (Run.value_eq_ok.mpr hshadow)
      · obtain ⟨block, b, hget, haggregate, hsound, hcomplete⟩ :=
          along_cells hnodup haxis ht (Run.value_eq_ok.mpr hshadow) (within_eraseIdx hρ)
        rw [without_ofList, cellAt_named, hget, Except.ok.injEq,
          Quantifies.any.aggregate_iff haggregate, getD_extent haxis]
        constructor
        · exact hsound true
        · rintro ⟨v, hv, hcell⟩
          obtain ⟨x, hx, hcell'⟩ := hcomplete v hv
          exact Except.ok.inj (hcell'.symm.trans hcell) ▸ hx

theorem complement_spec (h : (truthValues.map .not t).value = .ok r) :
    r.shape = t.shape ∧ ∀ index ∈ t.shape.indices,
      (r.get index = .ok true ↔ t.get index = .ok false) := by
  obtain ⟨hshape, -, hget⟩ := Tensor.fill_spec (Tensor.map_ok (Run.value_eq_ok.mp h))
  refine ⟨hshape, fun index hindex => ?_⟩
  obtain ⟨z, hz, s, s', hcell⟩ := hget index hindex
  obtain ⟨x, hx, hcell⟩ := Run.lift_bind_eq_ok.mp hcell
  have hnot : (!x) = z := Except.ok.inj (Run.value_eq_ok.mpr hcell)
  rw [hz, hx, ← hnot]
  cases x <;> simp

/-- The last contraction looks for one assignment for all shadows and the complement. -/
theorem found_iff {parts : List (Labelled Bool)} {outside found : Tensor Bool} {axes : List Nat}
    {b : Bool} (hparts : List.Forall₂ (ShadowOf t labels extent) axes parts)
    (houtside : outside.shape = labels.map extent)
    (h : (truthValues.reduce .any "" .and
      (parts ++ [outside.named (String.ofList labels)])).value = .ok found)
    (hb : found.toScalar = .ok b) :
    b = true ↔ ∃ ρ : Char → Nat, Within extent labels ρ ∧
      (∀ axis ∈ axes, ∃ v < (labels.map extent).getD axis 0,
        t.get ((labels.map ρ).set axis v) = .ok true) ∧
      outside.get (labels.map ρ) = .ok true := by
  obtain ⟨hcomplete, hsound⟩ := exists_of_forall₂ hparts
  have hsized : Join.Sized extent (parts ++ [outside.named (String.ofList labels)]) := by
    refine List.forall_mem_append.mpr ⟨fun part hpart => ?_, sized_along houtside⟩
    obtain ⟨axis, -, hshadow⟩ := hsound part hpart
    exact hshadow.shape_eq
  have hrank : found.rank = 0 := by
    rw [Tensor.rank, (Join.reduce_sized (reduce_lifted h) hsized).1]
    rfl
  have hnone : Within extent "".toList fun _ => 0 := fun c hc => absurd hc List.not_mem_nil
  obtain ⟨z, hget, hz⟩ := Quantifies.any.reduce_iff h hsized hnone
  rw [Tensor.toScalar, if_pos hrank] at hb
  obtain rfl : z = b := Except.ok.inj (hget.symm.trans hb)
  rw [hz]
  refine exists_congr fun π => ?_
  have hextends : Join.Extends "" (parts ++ [outside.named (String.ofList labels)]) extent
      (fun _ => 0) π ↔ Within extent labels π := by
    constructor
    · intro hπ
      have hwithin := hπ.within _ (List.mem_append_right _ (List.mem_singleton_self _))
      rwa [letters_named] at hwithin
    · intro hπ
      refine ⟨by simp, List.forall_mem_append.mpr ⟨fun part hpart => ?_, ?_⟩⟩
      · obtain ⟨axis, -, hshadow⟩ := hsound part hpart
        rw [hshadow.letters_eq]
        exact within_eraseIdx hπ
      · exact List.forall_mem_singleton.mpr ((letters_named outside labels).symm ▸ hπ)
  rw [hextends, List.forall_mem_append, List.forall_mem_singleton, cellAt_named]
  refine and_congr_right fun hπ => and_congr_left fun _ => ?_
  constructor
  · intro hall axis haxis
    obtain ⟨part, hpart, hshadow⟩ := hcomplete axis haxis
    exact (hshadow.holds_iff hπ).mp (hall part hpart)
  · intro hall part hpart
    obtain ⟨axis, haxis, hshadow⟩ := hsound part hpart
    exact (hshadow.holds_iff hπ).mpr (hall axis haxis)

theorem isEssential_iff {b : Bool} (h : (isEssential truthValues t).value = .ok b) :
    b = true ↔ ∃ index ∈ t.shape.indices, t.get index = .ok false ∧
      ∀ axis < t.rank, ∃ v < t.shape.getD axis 0, t.get (index.set axis v) = .ok true := by
  obtain ⟨names, hnames, h⟩ := Run.lift_bind_eq_ok.mp (Run.value_eq_ok.mp h)
  obtain ⟨-, hrank, rfl⟩ := axisLabels_eq_ok hnames
  obtain ⟨labels, extent, hlabels, hnodup, hshape⟩ := exists_lettering hrank
  rw [Tensor.rank, ← hlabels] at h
  obtain ⟨parts, s₁, hparts, h⟩ := Run.bind_eq_ok.mp h
  obtain ⟨outside, s₂, houtside, h⟩ := Run.bind_eq_ok.mp h
  obtain ⟨found, s₃, hfound, h⟩ := Run.bind_eq_ok.mp h
  rw [String.length_ofList] at hparts
  have hshadows := shadows_spec hnodup hshape.symm (fun axis => List.mem_range.mp)
    (Run.value_eq_ok.mpr hparts)
  obtain ⟨hsame, hcomplement⟩ := complement_spec (Run.value_eq_ok.mpr houtside)
  have hlength : t.rank = labels.length := by rw [Tensor.rank, ← hshape, List.length_map]
  rw [found_iff hshadows (hsame.trans hshape.symm) (Run.value_eq_ok.mpr hfound)
    (Run.lift_eq_ok.mp h).1, hshape, hlength]
  constructor
  · rintro ⟨ρ, hρ, hall, hnot⟩
    have hindex : labels.map ρ ∈ t.shape.indices := hshape ▸ map_mem_indices.mpr hρ
    exact ⟨_, hindex, (hcomplement _ hindex).mp hnot,
      fun axis haxis => hall axis (List.mem_range.mpr haxis)⟩
  · rintro ⟨index, hindex, hnot, hall⟩
    have hnot' := (hcomplement _ hindex).mpr hnot
    rw [← hshape] at hindex
    obtain ⟨ρ, rfl⟩ := exists_assignment hnodup
      ((Shape.length_of_mem_indices hindex).trans (List.length_map _))
    exact ⟨ρ, map_mem_indices.mp hindex, fun axis haxis => hall axis (List.mem_range.mp haxis),
      hnot'⟩

/-! ## Operations -/

/-- No change of the coordinate makes a difference to the cells that hold. -/
def Ignores (t : Tensor Bool) (axis : Nat) : Prop :=
  ∀ index ∈ t.shape.indices, ∀ v < t.shape.getD axis 0,
    (t.get index = .ok true ↔ t.get (index.set axis v) = .ok true)

section Ignored

variable (hnodup : labels.Nodup) (haxis : axis < labels.length) (ht : t.shape = labels.map extent)
  (h : (truthValues.reduce .eqs (String.ofList (labels.eraseIdx axis)) .id
    [t.named (String.ofList labels)]).value = .ok r)
include hnodup haxis ht h

theorem constant_get_iff (hρ : Within extent (labels.eraseIdx axis) ρ) :
    r.get ((labels.eraseIdx axis).map ρ) = .ok true ↔
      ∀ v < extent labels[axis], ∀ w < extent labels[axis],
        (t.get ((labels.map ρ).set axis v) = .ok true ↔
          t.get ((labels.map ρ).set axis w) = .ok true) := by
  obtain ⟨block, b, hget, haggregate, hsound, hcomplete⟩ := along_cells hnodup haxis ht h hρ
  have hagree : neighboursAgree block = b := Except.ok.inj haggregate
  rw [← List.map_id' block] at hagree
  rw [hget, Except.ok.injEq, ← hagree, neighboursAgree_map]
  constructor
  · intro hequal v hv w hw
    obtain ⟨x, hx, hcell⟩ := hcomplete v hv
    obtain ⟨y, hy, hcell'⟩ := hcomplete w hw
    rw [hcell, hcell', hequal x hx y hy]
  · intro hsame x hx y hy
    obtain ⟨v, hv, hcell⟩ := hsound x hx
    obtain ⟨w, hw, hcell'⟩ := hsound y hy
    have hiff := hsame v hv w hw
    rw [hcell, hcell', Except.ok.injEq, Except.ok.injEq] at hiff
    exact Bool.eq_iff_iff.mpr hiff

/-- The graph is constant along an axis if each tuple can be compared with its changes. -/
theorem ignored_iff : (∀ kept ∈ r.shape.indices, r.get kept = .ok true) ↔ Ignores t axis := by
  rw [along_shape ht h, Ignores, ht, getD_extent haxis]
  constructor
  · intro hconstant index hindex v hv
    obtain ⟨ρ, rfl⟩ := exists_assignment hnodup
      ((Shape.length_of_mem_indices hindex).trans (List.length_map _))
    have hρ := map_mem_indices.mp hindex
    have hcell := hconstant _ (map_mem_indices.mpr (within_eraseIdx hρ))
    have hself : (labels.map ρ).set axis (ρ labels[axis]) = labels.map ρ := by
      rw [map_set hnodup haxis, Function.update_eq_self]
    have hsame := (constant_get_iff hnodup haxis ht h (within_eraseIdx hρ)).mp hcell
      (ρ labels[axis]) (hρ _ (List.getElem_mem haxis)) v hv
    rwa [hself] at hsame
  · intro hignores kept hkept
    obtain ⟨ρ, rfl⟩ := exists_assignment (hnodup.eraseIdx axis)
      ((Shape.length_of_mem_indices hkept).trans (List.length_map _))
    have hρ := map_mem_indices.mp hkept
    refine (constant_get_iff hnodup haxis ht h hρ).mpr fun v hv w hw => ?_
    have hindex : (labels.map ρ).set axis v ∈ Shape.indices (labels.map extent) := by
      rw [map_set hnodup haxis, map_mem_indices]
      exact within_update hnodup haxis hρ hv
    have hsame := hignores _ hindex w hw
    rwa [List.set_set] at hsame

end Ignored

theorem ignoredArguments_spec (hnodup : labels.Nodup) (ht : t.shape = labels.map extent)
    {axes : List Nat} (haxes : ∀ axis ∈ axes, axis < labels.length) {results : List Bool}
    (h : (ignoredArguments truthValues t (String.ofList labels) axes).value = .ok results) :
    List.Forall₂ (fun axis ignored => ignored = true ↔ Ignores t axis) axes results := by
  induction axes generalizing results with
  | nil =>
      cases h
      exact .nil
  | cons axis rest ih =>
      obtain ⟨haxis, hrest⟩ := List.forall_mem_cons.mp haxes
      obtain ⟨constant, s₁, hconstant, h⟩ := Run.bind_eq_ok.mp (Run.value_eq_ok.mp h)
      obtain ⟨all, s₂, hall, h⟩ := Run.bind_eq_ok.mp h
      obtain ⟨ignored, s₃, hignored, h⟩ := Run.bind_eq_ok.mp h
      obtain ⟨others, s₄, hothers, h⟩ := Run.bind_eq_ok.mp h
      cases h
      rw [without_ofList] at hconstant
      have hreduce := Run.value_eq_ok.mpr hconstant
      refine .cons ?_ (ih hrest (Run.value_eq_ok.mpr hothers))
      have hrank : (String.ofList labels).length - 1 = constant.rank := by
        rw [Tensor.rank, along_shape ht hreduce, List.length_map,
          List.length_eraseIdx_of_lt haxis, String.length_ofList]
      rw [← ignored_iff hnodup haxis ht hreduce]
      refine foldedAll_iff (Join.inBounds_of_reduce hconstant) hrank ?_
      exact Run.value_eq_ok.mpr (Run.bind_eq_ok.mpr ⟨all, s₂, hall, hignored⟩)

theorem isEssentialOperation_iff {b : Bool}
    (h : (isEssentialOperation truthValues t).value = .ok b) :
    b = true ↔ ∀ axis < t.rank, 0 < axis → ¬ Ignores t axis := by
  obtain ⟨names, hnames, h⟩ := Run.lift_bind_eq_ok.mp (Run.value_eq_ok.mp h)
  obtain ⟨-, hrank, rfl⟩ := axisLabels_eq_ok hnames
  obtain ⟨labels, extent, hlabels, hnodup, hshape⟩ := exists_lettering hrank
  rw [Tensor.rank, ← hlabels] at h
  obtain ⟨ignored, s₁, hignored, h⟩ := Run.bind_eq_ok.mp h
  have hb : (!ignored.any fun a => a) = b := Except.ok.inj (Run.value_eq_ok.mpr h)
  have hlength : t.rank = labels.length := by rw [Tensor.rank, ← hshape, List.length_map]
  have haxes : ∀ axis, axis ∈ (List.range labels.length).drop 1 ↔
      axis < labels.length ∧ 0 < axis := by
    intro axis
    rw [List.range_eq_range', List.drop_range', List.mem_range'_1]
    omega
  rw [String.length_ofList] at hignored
  obtain ⟨hcomplete, hsound⟩ := exists_of_forall₂ (ignoredArguments_spec hnodup hshape.symm
    (fun axis haxis => ((haxes axis).mp haxis).1) (Run.value_eq_ok.mpr hignored))
  rw [← hb, Bool.not_eq_true', List.any_eq_false, hlength]
  constructor
  · intro hnone axis haxis hpos hignores
    obtain ⟨x, hx, hiff⟩ := hcomplete axis ((haxes axis).mpr ⟨haxis, hpos⟩)
    exact hnone x hx (hiff.mpr hignores)
  · intro hall x hx htrue
    obtain ⟨axis, haxis, hiff⟩ := hsound x hx
    obtain ⟨hlt, hpos⟩ := (haxes axis).mp haxis
    exact hall axis hlt hpos (hiff.mp htrue)

/-- A function ignores an argument if its values do not change with it. -/
theorem GraphOf.ignores_iff {rest : Shape} {f : Index → Nat} (h : GraphOf t n rest f) {i : Nat} :
    Ignores t (i + 1) ↔
      ∀ args ∈ rest.indices, ∀ w < rest.getD i 0, f (args.set i w) = f args := by
  rw [Ignores, h.shape_eq, Shape.forall_mem_indices_cons, List.getD_cons_succ]
  constructor
  · intro hignores args hargs w hw
    have hcell := hignores _ (h.value_lt hargs) args hargs w hw
    rw [List.set_cons_succ, h.holds_iff hargs (h.value_lt hargs),
      h.holds_iff (Shape.set_mem_indices hargs hw) (h.value_lt hargs)] at hcell
    exact (hcell.mp rfl).symm
  · intro hsame v hv args hargs w hw
    rw [List.set_cons_succ, h.holds_iff hargs hv,
      h.holds_iff (Shape.set_mem_indices hargs hw) hv, hsame args hargs w hw]

/-- Of any number of axes, a relation is essential if some tuple is outside while each of its
coordinates can be changed alone to land inside, and the graph of a function
(`isFunction_iff_graphOf`) is essential if each of its arguments can be changed alone to
change the value. -/
theorem essential_spec :
    (∀ rel b, (isEssential truthValues rel).value = .ok b →
      (b = true ↔ ∃ index ∈ rel.shape.indices, rel.get index = .ok false ∧
        ∀ axis < rel.rank, ∃ v < rel.shape.getD axis 0,
          rel.get (index.set axis v) = .ok true)) ∧
    ∀ op n rest f b, GraphOf op n rest f →
      (isEssentialOperation truthValues op).value = .ok b →
      (b = true ↔ ∀ i < rest.length, ∃ args ∈ rest.indices, ∃ w < rest.getD i 0,
        f (args.set i w) ≠ f args) := by
  refine ⟨fun rel b h => isEssential_iff h, fun op n rest f b hop h => ?_⟩
  have hrank : op.rank = rest.length + 1 := by rw [Tensor.rank, hop.shape_eq, List.length_cons]
  rw [isEssentialOperation_iff h, hrank]
  constructor
  · intro hall i hi
    have hnot := hall (i + 1) (by omega) (by omega)
    rw [hop.ignores_iff] at hnot
    push Not at hnot
    exact hnot
  · intro hall axis haxis hpos
    obtain ⟨i, rfl⟩ : ∃ i, axis = i + 1 := ⟨axis - 1, by omega⟩
    obtain ⟨args, hargs, w, hw, hne⟩ := hall i (by omega)
    rw [hop.ignores_iff]
    exact fun hsame => hne (hsame args hargs w hw)

/-- Equality and the sum modulo 2, on two elements. -/
def equality : Tensor Bool :=
  { shape := [2, 2], strides := [2, 1], offset := 0, buffer := #[true, false, false, true] }

def parity : Tensor Bool :=
  { shape := [2, 2, 2], strides := [4, 2, 1], offset := 0,
    buffer := #[true, false, false, true, false, true, true, false] }

theorem essential_spec_parity :
    (isEssential truthValues equality).value = .ok true ∧
    (∃ index ∈ Shape.indices [2, 2], equality.get index = .ok false ∧
      ∀ axis < 2, ∃ v < [2, 2].getD axis 0, equality.get (index.set axis v) = .ok true) ∧
    (isEssentialOperation truthValues parity).value = .ok true ∧
    ∀ i < 2, ∃ args ∈ Shape.indices [2, 2], ∃ w < [2, 2].getD i 0,
      (args.set i w).count 1 % 2 ≠ args.count 1 % 2 := by
  have hgraph : GraphOf parity 2 [2, 2] fun args => args.count 1 % 2 := by decide
  have hequality : (isEssential truthValues equality).value = .ok true := by decide +kernel
  have hparity : (isEssentialOperation truthValues parity).value = .ok true := by decide +kernel
  exact ⟨hequality, (essential_spec.1 equality true hequality).mp rfl,
    hparity, (essential_spec.2 parity 2 [2, 2] _ true hgraph hparity).mp rfl⟩

end TensorLogic.Relation
