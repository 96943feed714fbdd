import TensorLogic.Proofs.Constructible
import TensorLogic.Proofs.Walk

/-!
# Stacks and their slices

A stack puts tensors of one shape side by side along a new last axis, in a buffer of its own.
Taking a tensor apart copies nothing: each coordinate of the last axis gives a view of the same
buffer, from another offset on. The two meet at the indices. A stack has at `index ++ [k]` what
its part `k` has at `index`, and so has a tensor and its slice `k`. Hence each undoes the other
up to the comparison of tensors, which does not see how they are stored.

Both have to ask for memory, the one for its cells and the other for its list of views. Beyond
what can be asked for they trap, and nothing else stops them (`stack_unconcat`).
-/

namespace TensorLogic

variable {α : Type}

/-- Tensors of one shape can be stacked if the stack fits into memory. -/
theorem Shape.Fillable.stack_ok [Cell α] {shape : Shape} {parts : List (Tensor α)}
    (h : Fillable (shape ++ [parts.length]) α) (hne : parts ≠ [])
    (hparts : ∀ part ∈ parts, part.shape = shape) (hread : ∀ part ∈ parts, part.Readable) :
    ∃ u, Tensor.stack parts = .ok u := by
  have hfails : FailsBy (fun _ => False) (Tensor.stack parts) :=
    h.stack_failsBy hne hparts rfl fun part hpart index hindex =>
      have ⟨_, hcell⟩ := hread part hpart index (hparts part hpart ▸ hindex)
      .of_ok hcell
  cases hu : Tensor.stack parts with
  | error fault => exact (hfails fault hu).elim
  | ok u => exact ⟨u, rfl⟩

namespace Tensor

/-- Where the shape of a stack can be stored but not reserved, stacking overflows. -/
theorem stack_overflows [Cell α] {shape : Shape} {parts : List (Tensor α)} (hne : parts ≠ [])
    (hparts : ∀ part ∈ parts, part.shape = shape)
    (hstorable : Shape.Storable (shape ++ [parts.length]))
    (hlarge : Size.reserve (Shape.cells (shape ++ [parts.length])) (Cell.width α) ≠ .ok ()) :
    stack parts = trap (.capacity (Shape.cells (shape ++ [parts.length]))) := by
  rw [stack_eq hne hparts, hstorable.checked, generate_overflows hstorable hlarge]
  rfl

variable {t u : Tensor α} {front : Shape} {extent : Nat}

/-- What a stack of parts of the given shape is. -/
theorem stack_cells [Cell α] {shape : Shape} {parts : List (Tensor α)} (h : stack parts = .ok u)
    (hparts : ∀ part ∈ parts, part.shape = shape) :
    u.shape = shape ++ [parts.length] ∧ u.InBounds ∧
      ∀ index ∈ shape.indices, ∀ (k : Nat) (hk : k < parts.length),
        ∃ a, u.get (index ++ [k]) = .ok a ∧ parts[k].get index = .ok a := by
  obtain ⟨shape', hparts', hcells⟩ := stack_spec h
  -- an empty stack is refused, so there is a part to compare the shapes at
  match parts with
  | [] => cases h
  | first :: rest =>
      rwa [← hparts first List.mem_cons_self, hparts' first List.mem_cons_self]

theorem unconcat_returns (ht : t.InBounds) (hshape : t.shape = front ++ [extent])
    (hviews : extent * viewWidth < Nat.pow 2 63) :
    t.unconcat = .ok ((List.range extent).map t.slice) := by
  rw [unconcat_reserve ht hshape, Size.reserve_ok_iff.mpr hviews]
  rfl

theorem unconcat_overflows (ht : t.InBounds) (hshape : t.shape = front ++ [extent])
    (hviews : Nat.pow 2 63 ≤ extent * viewWidth) : t.unconcat = trap (.capacity extent) := by
  rw [unconcat_reserve ht hshape,
    Size.reserve_error (mt Size.reserve_ok_iff.mp (Nat.not_lt.mpr hviews))]
  rfl

theorem slices_spec (ht : t.InBounds) (hshape : t.shape = front ++ [extent]) :
    ∀ part ∈ (List.range extent).map t.slice, part.shape = front ∧ part.InBounds := by
  intro part hpart
  obtain ⟨k, hk, rfl⟩ := List.mem_map.mp hpart
  obtain ⟨hslice, hbounds, -⟩ := slice_cells ht hshape (List.mem_range.mp hk)
  exact ⟨hslice, hbounds⟩

section Equal

variable [Cell α] [BEq α] [ReflBEq α]

/-- Slice `k` of a stack is part `k`. -/
theorem equal_slice_of_stack {parts : List (Tensor α)} (h : stack parts = .ok u) {k : Nat}
    (hk : k < parts.length) : equal (u.slice k) parts[k] = .ok true := by
  obtain ⟨shape, hparts, hshape, hbounds, hget⟩ := stack_spec h
  obtain ⟨hslice, -, hcell⟩ := slice_cells hbounds hshape hk
  refine equal_eq_true_iff.mpr
    ⟨hslice.trans (hparts _ (List.getElem_mem hk)).symm, fun index hindex => ?_⟩
  rw [hslice] at hindex
  obtain ⟨a, ha, hpart⟩ := hget index hindex k hk
  exact ⟨a, a, (hcell index hindex).trans ha, hpart, BEq.rfl⟩

theorem slices_of_stack {parts : List (Tensor α)} (h : stack parts = .ok u) :
    List.Forall₂ (fun view part => equal view part = .ok true)
      ((List.range parts.length).map u.slice) parts := by
  rw [List.forall₂_iff_get]
  refine ⟨by simp, fun k hk hk' => ?_⟩
  simpa using equal_slice_of_stack h hk'

/-- The stack of the slices of a tensor is the tensor. -/
theorem equal_stack_of_slices (ht : t.InBounds) (hshape : t.shape = front ++ [extent])
    (h : stack ((List.range extent).map t.slice) = .ok u) : equal u t = .ok true := by
  obtain ⟨hushape, -, hget⟩ := stack_cells h fun part hpart => (slices_spec ht hshape part hpart).1
  rw [List.length_map, List.length_range] at hushape
  refine equal_eq_true_iff.mpr ⟨hushape.trans hshape.symm, fun index hindex => ?_⟩
  rw [hushape] at hindex
  obtain ⟨i, hi, k, hk, rfl⟩ := Shape.mem_indices_concat.mp hindex
  obtain ⟨a, ha, hpart⟩ := hget i hi k (by simpa using hk)
  rw [List.getElem_map, List.getElem_range] at hpart
  obtain ⟨-, -, hcell⟩ := slice_cells ht hshape hk
  exact ⟨a, a, ha, (hcell i hi).symm.trans hpart, BEq.rfl⟩

end Equal

def byColumns : Tensor Nat :=
  { shape := [2, 2], strides := [1, 2], offset := 0, buffer := #[1, 2, 3, 4] }

/-- Two by two cells, stored row by row, column by column, as one value, and in between the
cells of another tensor. -/
def storedForms : List (Tensor Nat) :=
  [{ byColumns with strides := [2, 1] }, byColumns, .constant [2, 2] 7,
    { shape := [2, 2], strides := [4, 2], offset := 1, buffer := #[1, 2, 3, 4, 5, 6, 7, 8] }]

def noRows : Tensor Nat :=
  .constant [0, 3] 7

/-- One column of 2^61 rows, which all read the same stored cell. -/
def wideColumn : Tensor Nat :=
  .constant [2305843009213693952, 1] 7

end Tensor

end TensorLogic
