import Mathlib.Data.List.FinRange
import Mathlib.Logic.Equiv.Basic
import TensorLogic.Proofs.Alike
import TensorLogic.Proofs.Faults
import TensorLogic.Proofs.Walk

/-!
# Views as substitutions of indices

A view is known by the index that it reads at its source. A reshape reads the
coordinate of each target axis at the source axis that the target axis names and 0 at
all other axes; a slice reads its number behind the index. So a chain of views reads
its source at the composition of what its members substitute (`sourceThrough`), and
nothing else about strides and offsets can be seen from outside.

Three things follow. A permutation of the axes is undone by the inverse permutation.
Tensors that compare equal still do after the same views, however each is stored. And
a reshape is refused for its shapes and axes alone, on four conditions
(`Tensor.reshape_ok_iff`).
-/

namespace TensorLogic

variable {α : Type}

namespace Tensor

/-! ## When a reshape is granted -/

instance (shape : Shape) (extent : Nat) : (axis : Axis) → Decidable (KeepsExtent shape axis extent)
  | .broadcast => .isTrue nofun
  | .source source =>
      decidable_of_iff (shape[source]? = some extent) ⟨fun h _ hsame => Axis.source.inj hsame ▸ h,
        fun h => h source rfl⟩

theorem axisStride_of_keeps {t : Tensor α} {axis : Axis} {extent : Nat}
    (h : KeepsExtent t.shape axis extent) (target : Shape) :
    t.axisStride target extent axis = .ok (t.strideOf axis) := by
  cases axis with
  | broadcast => rfl
  | source axis => simp only [axisStride, h axis rfl, if_true, strideOf]

theorem axisStrides_of_keeps {t : Tensor α} {axes : List Axis} {extents : Shape}
    (h : List.Forall₂ (KeepsExtent t.shape) axes extents) (target : Shape) :
    t.axisStrides target extents axes = .ok (axes.map t.strideOf) := by
  induction h with
  | nil => rfl
  | cons hkeep _ ih =>
      rw [axisStrides, axisStride_of_keeps hkeep, ih]
      rfl

theorem axisStrides_failsBy (t : Tensor α) (target extents : Shape) (axes : List Axis) :
    FailsBy Fault.IsRefusal (t.axisStrides target extents axes) := by
  fun_induction t.axisStrides target extents axes with
  | case1 extent extents axis axes ih =>
      have hstride : FailsBy Fault.IsRefusal (t.axisStride target extent axis) := by
        unfold axisStride
        split
        · exact .of_ok rfl
        · split
          · exact .throw ⟨_, rfl⟩
          · split
            · exact .of_ok rfl
            · exact .throw ⟨_, rfl⟩
      exact hstride.bind fun _ _ => ih.bind fun _ _ => .of_ok rfl
  | case2 => exact .of_ok rfl

variable {t : Tensor α} {size : Nat}

theorem isEmpty_of_checked (hsize : Size.checked t.shape = .ok size) :
    t.isEmpty = .ok (t.shape.cells == 0) := by
  obtain ⟨rfl, -, hplain⟩ := Size.checked_ok hsize
  rw [isEmpty, Tensor.size, hplain]
  rfl

/-- A reshape is granted if there is an axis for each extent, the target has a size, the
named axes exist and keep their extents, and no cell would be shown where there is none. -/
theorem reshape_ok_iff (hsize : Size.checked t.shape = .ok size) {target : Shape}
    {axes : List Axis} :
    (∃ r, t.reshape target axes = .ok r) ↔
      target.length = axes.length ∧ (∃ n, Size.checked target = .ok n) ∧
        List.Forall₂ (KeepsExtent t.shape) axes target ∧
          ¬ (t.shape.cells = 0 ∧ target.cells ≠ 0) := by
  constructor
  · rintro ⟨r, h⟩
    obtain ⟨-, hkeeps, hempty⟩ := reshape_ok h
    have hlen : target.length = axes.length := hkeeps.length_eq.symm
    rw [reshape, if_neg (not_not_intro hlen)] at h
    obtain ⟨n, hn, -⟩ := bind_eq_ok.mp h
    refine ⟨hlen, ⟨n, hn⟩, hkeeps, fun ⟨hsource, htarget⟩ => ?_⟩
    exact htarget (Shape.cells_eq_zero_iff.mpr (hempty (Shape.cells_eq_zero_iff.mp hsource)))
  · rintro ⟨hlen, ⟨n, hn⟩, hkeeps, hempty⟩
    obtain ⟨rfl, -, -⟩ := Size.checked_ok hn
    have hshown : ¬ ((t.shape.cells == 0) && target.cells != 0) = true := by
      simpa using hempty
    refine ⟨{ t with shape := target, strides := axes.map t.strideOf }, ?_⟩
    rw [reshape, if_neg (not_not_intro hlen), hn, axisStrides_of_keeps hkeeps,
      isEmpty_of_checked hsize]
    change (if _ then _ else _) = _
    rw [if_neg hshown]

theorem reshape_failsBy (hsize : Size.checked t.shape = .ok size) (target : Shape)
    (axes : List Axis) : FailsBy Fault.IsRefusal (t.reshape target axes) := by
  unfold reshape
  split
  · exact .throw ⟨_, rfl⟩
  · refine (Size.checked_failsBy ⟨_, rfl⟩).bind fun _ _ => ?_
    refine (axisStrides_failsBy t target target axes).bind fun _ _ => ?_
    refine FailsBy.bind (.of_ok (isEmpty_of_checked hsize)) fun _ _ => ?_
    split
    · exact .throw ⟨_, rfl⟩
    · exact .of_ok rfl

/-! ## What a reshape substitutes -/

/-- A source axis takes the coordinate of the target axis that names it. -/
theorem sourceIndex_named {rank : Nat} {axes : List Axis} {index : Index}
    (honce : (Axis.sources axes).Nodup) (hlen : index.length = axes.length) {axis k : Nat}
    (haxis : axis < rank) (hk : axes[k]? = some (.source axis)) :
    (sourceIndex rank axes index)[axis]? = index[k]? := by
  induction axes generalizing index k with
  | nil => cases hk
  | cons first axes ih =>
      obtain ⟨i, index, rfl⟩ := List.exists_cons_of_length_eq_add_one hlen
      have hrest : index.length = axes.length := Nat.succ.inj hlen
      cases k with
      | zero =>
          cases hk
          simp only [sourceIndex, List.getElem?_cons_zero]
          exact List.getElem?_set_self (by rwa [length_sourceIndex])
      | succ k =>
          rw [List.getElem?_cons_succ] at hk ⊢
          cases first with
          | broadcast => exact ih honce hrest hk
          | source other =>
              simp only [Axis.sources, List.filterMap_cons, List.nodup_cons] at honce
              have hne : other ≠ axis := fun hsame => honce.1 <|
                List.mem_filterMap.mpr ⟨_, List.mem_of_getElem? hk, by rw [hsame]⟩
              rw [sourceIndex, List.getElem?_set_ne hne]
              exact ih honce.2 hrest hk

theorem lt_of_keeps {shape target : Shape} {axes : List Axis}
    (h : List.Forall₂ (KeepsExtent shape) axes target) {axis k : Nat}
    (hk : axes[k]? = some (.source axis)) : axis < shape.length := by
  obtain ⟨hlt, hnamed⟩ := List.getElem?_eq_some_iff.mp hk
  have hextent := (List.forall₂_iff_get.mp h).2 k hlt (h.length_eq ▸ hlt) axis hnamed
  exact (List.getElem?_eq_some_iff.mp hextent).1

/-! ## Permutations -/

/-- The axes in the order of a permutation. -/
def permuted {n : Nat} (e : Equiv.Perm (Fin n)) : List Axis :=
  List.ofFn fun i => .source (e i)

theorem sources_permuted {n : Nat} (e : Equiv.Perm (Fin n)) :
    Axis.sources (permuted e) = List.ofFn fun i => (e i).val := by
  rw [Axis.sources, permuted, List.ofFn_eq_map, List.ofFn_eq_map, List.filterMap_map]
  exact congrFun List.filterMap_eq_map _

theorem nodup_permuted {n : Nat} (e : Equiv.Perm (Fin n)) :
    (Axis.sources (permuted e)).Nodup := by
  rw [sources_permuted, List.nodup_ofFn]
  exact Fin.val_injective.comp e.injective

theorem getElem?_permuted {n : Nat} (e : Equiv.Perm (Fin n)) (i : Fin n) :
    (permuted e)[i.val]? = some (.source (e i)) := by
  simp [permuted]

theorem length_permuted {n : Nat} (e : Equiv.Perm (Fin n)) : (permuted e).length = n :=
  List.length_ofFn

/-- What a permutation substitutes is substituted back by its inverse. -/
theorem sourceIndex_permuted {n : Nat} (e : Equiv.Perm (Fin n)) {index : Index}
    (hlen : index.length = n) :
    sourceIndex n (permuted e) (sourceIndex n (permuted e.symm) index) = index := by
  refine List.ext_getElem? fun j => ?_
  rcases Nat.lt_or_ge j n with hj | hj
  · have hback := getElem?_permuted e (e.symm ⟨j, hj⟩)
    have hforth := getElem?_permuted e.symm ⟨j, hj⟩
    rw [Equiv.apply_symm_apply] at hback
    rw [sourceIndex_named (nodup_permuted e)
      (by rw [length_sourceIndex, length_permuted]) hj hback]
    exact sourceIndex_named (nodup_permuted e.symm) (by rw [hlen, length_permuted])
      (e.symm ⟨j, hj⟩).isLt hforth
  · rw [List.getElem?_eq_none (by rwa [length_sourceIndex]),
      List.getElem?_eq_none (by rwa [hlen])]

theorem getElem?_of_permuted {n : Nat} {e : Equiv.Perm (Fin n)} {shape target : Shape}
    (h : List.Forall₂ (KeepsExtent shape) (permuted e) target) (i : Fin n) :
    shape[(e i).val]? = target[i.val]? := by
  have hi : i.val < (permuted e).length := by
    rw [length_permuted]
    exact i.isLt
  have hi' : i.val < target.length := h.length_eq ▸ hi
  have hkeep := (List.forall₂_iff_get.mp h).2 i hi hi'
  rw [List.getElem?_eq_getElem hi']
  exact hkeep _ (List.getElem_eq_iff hi |>.mpr (getElem?_permuted e i))

/-- The inverse permutation keeps the extents the way back. -/
theorem keeps_permuted_symm {shape target : Shape} {e : Equiv.Perm (Fin shape.length)}
    (h : List.Forall₂ (KeepsExtent shape) (permuted e) target) :
    List.Forall₂ (KeepsExtent target) (permuted e.symm) shape := by
  refine List.forall₂_iff_get.mpr ⟨length_permuted _, fun j hj hj' source hsource => ?_⟩
  have hforth := getElem?_permuted e.symm ⟨j, hj'⟩
  rw [List.getElem?_eq_getElem hj] at hforth
  obtain rfl : (e.symm ⟨j, hj'⟩).val = source := by
    rw [List.get_eq_getElem, Option.some.inj hforth] at hsource
    exact Axis.source.inj hsource
  rw [← getElem?_of_permuted h, Equiv.apply_symm_apply]
  exact List.getElem?_eq_getElem hj'

/-- A permutation of the axes is undone by its inverse. -/
theorem reshape_permuted_symm (ht : t.InBounds) (hsize : Size.checked t.shape = .ok size)
    {e : Equiv.Perm (Fin t.rank)} {target : Shape} {r : Tensor α}
    (h : t.reshape target (permuted e) = .ok r) :
    ∃ u, r.reshape t.shape (permuted e.symm) = .ok u ∧ u.shape = t.shape ∧
      ∀ index ∈ t.shape.indices, u.get index = t.get index := by
  obtain ⟨-, ⟨n, hn⟩, hkeeps, -⟩ := (reshape_ok_iff hsize).mp ⟨r, h⟩
  obtain ⟨rfl, hr, hget⟩ := reshape_spec ht (nodup_permuted e) h
  have hback := keeps_permuted_symm hkeeps
  have hrank : r.shape.length = t.rank := hkeeps.length_eq.symm.trans (length_permuted e)
  have hempty : 0 ∈ r.shape → 0 ∈ t.shape := fun hzero => by
    obtain ⟨i, hi, hextent⟩ := List.getElem_of_mem hzero
    have hsame := getElem?_of_permuted hkeeps ⟨i, hrank ▸ hi⟩
    rw [List.getElem?_eq_getElem hi, hextent] at hsame
    exact List.mem_of_getElem? hsame
  obtain ⟨u, hu⟩ := (reshape_ok_iff hn).mpr ⟨(length_permuted e.symm).symm, ⟨size, hsize⟩, hback,
    fun ⟨hsource, htarget⟩ => htarget <|
      Shape.cells_eq_zero_iff.mpr (hempty (Shape.cells_eq_zero_iff.mp hsource))⟩
  obtain ⟨hshape, -, hgetu⟩ := reshape_spec hr (nodup_permuted e.symm) hu
  refine ⟨u, hu, hshape, fun index hindex => ?_⟩
  obtain ⟨hmem, hread⟩ := hgetu index hindex
  rw [hread, (hget _ hmem).2, hrank]
  exact congrArg t.get (sourceIndex_permuted e (Shape.length_of_mem_indices hindex))

end Tensor

/-! ## Chains of views -/

/-- A view that shows each cell of its source at most once, broadcast axes apart. -/
inductive View where
  /-- A reshape that names each source axis at most once. -/
  | reshape (target : Shape) (axes : List Axis) (once : (Axis.sources axes).Nodup)
  /-- One element of `unconcat`. -/
  | slice (k : Nat)

namespace View

/-- The shape of the view of a source. -/
def shape (source : Shape) : View → Shape
  | reshape target _ _ => target
  | slice _ => source.dropLast

/-- Where the view of a source reads. -/
def sourceAt (source : Shape) : View → Index → Index
  | reshape _ axes _, index => Tensor.sourceIndex source.length axes index
  | slice k, index => index ++ [k]

/-- Where a chain of views reads: the substitution of the last view comes first. -/
def sourceThrough (source : Shape) : List View → Index → Index
  | [], index => index
  | view :: views, index =>
      view.sourceAt source (sourceThrough (view.shape source) views index)

end View

namespace Tensor

def view (t : Tensor α) : View → Except Fault (Tensor α)
  | .reshape target axes _ => t.reshape target axes
  | .slice k => do
      match (← t.unconcat)[k]? with
      | some part => .ok part
      | none => trap .outOfBounds

/-- The views of a chain, each of the one before. -/
def viewThrough (t : Tensor α) (views : List View) : Except Fault (Tensor α) :=
  views.foldlM view t

variable {t : Tensor α}

theorem view_spec (ht : t.InBounds) {v : View} {r : Tensor α} (h : t.view v = .ok r) :
    r.shape = v.shape t.shape ∧ r.InBounds ∧ ∀ index ∈ r.shape.indices,
      v.sourceAt t.shape index ∈ t.shape.indices ∧
        r.get index = t.get (v.sourceAt t.shape index) := by
  cases v with
  | reshape target axes once =>
      obtain ⟨rfl, hr, hget⟩ := reshape_spec ht once h
      exact ⟨rfl, hr, hget⟩
  | slice k =>
      rw [view, unconcat_eq ht] at h
      obtain ⟨parts, hparts, h⟩ := bind_eq_ok.mp h
      split at hparts
      next => cases hparts
      next extent hlast =>
        obtain ⟨_, -, hparts⟩ := bind_eq_ok.mp hparts
        cases hparts
        split at h
        next part hpart =>
          cases h
          obtain ⟨hk, rfl⟩ := List.getElem?_eq_some_iff.mp hpart
          rw [List.length_map, List.length_range] at hk
          rw [List.getElem_map, List.getElem_range]
          exact slice_spec ht hlast hk
        next => cases h

/-- A chain of views reads its source at the composed substitution. -/
theorem viewThrough_spec (ht : t.InBounds) {views : List View} {r : Tensor α}
    (h : t.viewThrough views = .ok r) :
    r.shape = views.foldl View.shape t.shape ∧ r.InBounds ∧ ∀ index ∈ r.shape.indices,
      View.sourceThrough t.shape views index ∈ t.shape.indices ∧
        r.get index = t.get (View.sourceThrough t.shape views index) := by
  induction views generalizing t with
  | nil =>
      cases h
      exact ⟨rfl, ht, fun index hindex => ⟨hindex, rfl⟩⟩
  | cons v views ih =>
      rw [viewThrough, List.foldlM_cons] at h
      obtain ⟨u, hu, h⟩ := bind_eq_ok.mp h
      obtain ⟨hshape, hbounds, hstep⟩ := view_spec ht hu
      obtain ⟨hlast, hr, hrest⟩ := ih hbounds h
      refine ⟨by rw [List.foldl_cons, ← hshape, hlast], hr, fun index hindex => ?_⟩
      obtain ⟨hmem, hget⟩ := hrest index hindex
      obtain ⟨hsource, hread⟩ := hstep _ hmem
      rw [View.sourceThrough, ← hshape]
      exact ⟨hsource, hget.trans hread⟩

namespace Alike

variable {β : Type} {P : α → β → Prop} {u : Tensor β}

theorem view (h : Alike P t u) (v : View) : Agree (Alike P) (t.view v) (u.view v) := by
  cases v with
  | reshape target axes once => exact h.reshape target once
  | slice k =>
      refine h.unconcat.bind fun ts us hparts => ?_
      by_cases hk : k < ts.length
      · have hk' : k < us.length := hparts.length_eq ▸ hk
        rw [List.getElem?_eq_getElem hk, List.getElem?_eq_getElem hk']
        exact (List.forall₂_iff_get.mp hparts).2 k hk hk'
      · have hk' : ¬ k < us.length := hparts.length_eq ▸ hk
        rw [List.getElem?_eq_none (by omega), List.getElem?_eq_none (by omega)]
        exact rfl

/-- Tensors that are alike still are after the same views. -/
theorem viewThrough (h : Alike P t u) (views : List View) :
    Agree (Alike P) (t.viewThrough views) (u.viewThrough views) := by
  induction views generalizing t u with
  | nil => exact h
  | cons v views ih =>
      rw [Tensor.viewThrough, Tensor.viewThrough, List.foldlM_cons, List.foldlM_cons]
      exact (h.view v).bind fun r q hrq => ih hrq

end Alike

/-- Tensors that compare equal are tensors with cells that compare equal. -/
theorem alike_of_equal [BEq α] {u : Tensor α} (ht : t.InBounds) (hu : u.InBounds)
    (h : equal t u = .ok true) : Alike (fun x y => (x == y) = true) t u := by
  obtain ⟨hshape, hcells⟩ := equal_eq_true_iff.mp h
  refine ⟨hshape, ht, hu, fun index hindex => ?_⟩
  obtain ⟨x, y, hx, hy, hxy⟩ := hcells index hindex
  rw [hx, hy]
  exact hxy

theorem Alike.equal [BEq α] {u : Tensor α} (h : Alike (fun x y => (x == y) = true) t u) :
    Tensor.equal t u = .ok true := by
  refine equal_eq_true_iff.mpr ⟨h.shape_eq, fun index hindex => ?_⟩
  obtain ⟨x, hx⟩ := h.left.get_ok hindex
  obtain ⟨y, hy, hxy⟩ := (h.cells index hindex).ok_right hx
  exact ⟨x, y, hx, hy, hxy⟩

/-- Two copies of rows that overlap, as a slice of a buffer. -/
def interleaved : Tensor Nat :=
  { shape := [2, 2, 3], strides := [0, 1, 2], offset := 3, buffer := Array.range 10 }

/-- The same cells with a buffer of their own. -/
def interleavedCells : Tensor Nat :=
  { shape := [2, 2, 3], strides := [6, 3, 1], offset := 0,
    buffer := #[3, 5, 7, 4, 6, 8, 3, 5, 7, 4, 6, 8] }

def rotation : Equiv.Perm (Fin 3) :=
  (Equiv.swap 0 1).trans (Equiv.swap 1 2)

end Tensor

end TensorLogic
