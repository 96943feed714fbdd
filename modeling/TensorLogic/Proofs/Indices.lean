import Mathlib.Data.List.Forall2
import Mathlib.Data.List.Nodup
import TensorLogic.Shape

/-!
# The row-major order as a list

The model never builds `Shape.indices`; it visits the same order one index at a
time. This file says so once: `foldIndices` is a monadic fold over that list
and `collect` is a monadic map over it, in every lawful monad. After that nobody
unfolds the visit again, and what holds of a visit is shown by induction on a
list.

An index lies within a shape if it is a member of the list. `mem_indices` turns
that into a comparison axis by axis, and `indices_append` splits a shape into
the axes that stay and the axes that are folded.
-/

namespace TensorLogic.Shape

variable {m : Type → Type} [Monad m] [LawfulMonad m] {β γ : Type}

theorem mem_indices {shape : Shape} {index : Index} :
    index ∈ indices shape ↔ List.Forall₂ (· < ·) index shape := by
  induction shape generalizing index with
  | nil => simp [indices]
  | cons n rest ih =>
      simp only [indices, List.mem_flatMap, List.mem_range, List.mem_map]
      constructor
      · rintro ⟨i, hi, behind, hbehind, rfl⟩
        exact .cons hi (ih.mp hbehind)
      · rintro (_ | ⟨hi, hbehind⟩)
        exact ⟨_, hi, _, ih.mpr hbehind, rfl⟩

theorem cons_mem_indices {n i : Nat} {shape : Shape} {index : Index} :
    i :: index ∈ indices (n :: shape) ↔ i < n ∧ index ∈ indices shape := by
  simp only [mem_indices, List.forall₂_cons]

theorem mem_indices_nil {index : Index} : index ∈ indices [] ↔ index = [] := by
  simp [indices]

theorem pair_mem_indices {m n i j : Nat} (hi : i < m) (hj : j < n) : [i, j] ∈ indices [m, n] :=
  cons_mem_indices.mpr ⟨hi, cons_mem_indices.mpr ⟨hj, mem_indices_nil.mpr rfl⟩⟩

theorem mem_indices_cons {n : Nat} {shape : Shape} {index : Index} :
    index ∈ indices (n :: shape) ↔
      ∃ i, i < n ∧ ∃ behind ∈ indices shape, i :: behind = index := by
  simp only [mem_indices, List.forall₂_cons_right_iff, exists_and_left, eq_comm]

theorem mem_indices_pair {m n : Nat} {index : Index} :
    index ∈ indices [m, n] ↔ ∃ (i : Fin m) (j : Fin n), [i.val, j.val] = index := by
  constructor
  · intro h
    obtain ⟨i, hi, behind, hbehind, rfl⟩ := mem_indices_cons.mp h
    obtain ⟨j, hj, _, hnil, rfl⟩ := mem_indices_cons.mp hbehind
    obtain rfl := mem_indices_nil.mp hnil
    exact ⟨⟨i, hi⟩, ⟨j, hj⟩, rfl⟩
  · rintro ⟨i, j, rfl⟩
    exact pair_mem_indices i.isLt j.isLt

theorem forall_mem_indices_cons {n : Nat} {shape : Shape} {P : Index → Prop} :
    (∀ index ∈ indices (n :: shape), P index) ↔
      ∀ i < n, ∀ behind ∈ indices shape, P (i :: behind) := by
  constructor
  · intro h i hi behind hbehind
    exact h _ (cons_mem_indices.mpr ⟨hi, hbehind⟩)
  · intro h index hindex
    obtain ⟨i, hi, behind, hbehind, rfl⟩ := mem_indices_cons.mp hindex
    exact h i hi behind hbehind

theorem forall_mem_indices_nil {P : Index → Prop} : (∀ index ∈ indices [], P index) ↔ P [] := by
  simp only [mem_indices_nil, forall_eq]

theorem length_of_mem_indices {shape : Shape} {index : Index}
    (h : index ∈ indices shape) : index.length = shape.length :=
  (mem_indices.mp h).length_eq

theorem set_mem_indices {shape : Shape} {index : Index} (h : index ∈ indices shape)
    {axis v : Nat} (hv : v < shape.getD axis 0) : index.set axis v ∈ indices shape := by
  rw [mem_indices] at h ⊢
  induction h generalizing axis with
  | nil => exact .nil
  | cons hi hbehind ih =>
      cases axis with
      | zero => exact .cons hv hbehind
      | succ axis => exact .cons hi (ih hv)

theorem indices_eq_nil_iff {shape : Shape} : indices shape = [] ↔ 0 ∈ shape := by
  induction shape with
  | nil => simp [indices]
  | cons n rest ih =>
      have hrest : indices (n :: rest) = [] ↔ n = 0 ∨ indices rest = [] := by
        simp only [indices, List.flatMap_eq_nil_iff, List.map_eq_nil_iff,
          List.mem_range]
        constructor
        · intro h
          rcases Nat.eq_zero_or_pos n with hn | hn
          · exact .inl hn
          · exact .inr (h 0 hn)
        · rintro (rfl | h) i hi
          · omega
          · exact h
      rw [hrest, ih, List.mem_cons, eq_comm]

theorem length_indices (shape : Shape) : (indices shape).length = cells shape := by
  induction shape with
  | nil => rfl
  | cons n rest ih =>
      simp only [indices, List.length_flatMap, List.length_map, ih, cells,
        List.foldr_cons, List.map_const', List.length_range, List.sum_replicate_nat]

theorem nodup_indices (shape : Shape) : (indices shape).Nodup := by
  induction shape with
  | nil => simp [indices]
  | cons n rest ih =>
      rw [indices, List.nodup_flatMap]
      refine ⟨fun i _ => ih.map (List.cons_injective), ?_⟩
      refine List.nodup_range.pairwise_of_forall_ne fun i _ j _ hne => ?_
      intro index hi hj
      obtain ⟨_, -, rfl⟩ := List.mem_map.mp hi
      obtain ⟨_, -, heq⟩ := List.mem_map.mp hj
      exact hne (List.head_eq_of_cons_eq heq).symm

theorem indices_append (front back : Shape) :
    indices (front ++ back) =
      (indices front).flatMap fun i => (indices back).map (i ++ ·) := by
  induction front with
  | nil => simp [indices]
  | cons n rest ih =>
      simp only [List.cons_append, indices, ih, List.flatMap_assoc,
        List.map_flatMap, List.flatMap_map, List.map_map]
      rfl

theorem append_mem_indices {front back : Shape} {i j : Index}
    (hi : i ∈ indices front) (hj : j ∈ indices back) :
    i ++ j ∈ indices (front ++ back) := by
  rw [indices_append]
  exact List.mem_flatMap.mpr ⟨i, hi, List.mem_map.mpr ⟨j, hj, rfl⟩⟩

theorem mem_indices_concat {front : Shape} {n : Nat} {index : Index} :
    index ∈ indices (front ++ [n]) ↔ ∃ i ∈ indices front, ∃ k < n, index = i ++ [k] := by
  constructor
  · intro hindex
    rw [indices_append, List.mem_flatMap] at hindex
    obtain ⟨i, hi, hindex⟩ := hindex
    obtain ⟨last, hlast, rfl⟩ := List.mem_map.mp hindex
    obtain ⟨k, hk, behind, hbehind, rfl⟩ := mem_indices_cons.mp hlast
    exact ⟨i, hi, k, hk, by rw [mem_indices_nil.mp hbehind]⟩
  · rintro ⟨i, hi, k, hk, rfl⟩
    exact append_mem_indices hi (cons_mem_indices.mpr ⟨hk, mem_indices_nil.mpr rfl⟩)

/-! ## The visit is a fold over the list -/

omit [LawfulMonad m] in
theorem countUp_eq (step : Nat → β → m β) (count first : Nat) (acc : β) :
    countUp step count first acc =
      (List.range' first count).foldlM (fun acc i => step i acc) acc := by
  induction count generalizing first acc with
  | zero => rfl
  | succ count ih => simp only [countUp, List.range'_succ, List.foldlM_cons, ih]

theorem foldlM_flatMap {α : Type} (f : α → List γ) (step : β → γ → m β) (l : List α)
    (acc : β) :
    (l.flatMap f).foldlM step acc = l.foldlM (fun acc a => (f a).foldlM step acc) acc := by
  induction l generalizing acc with
  | nil => rfl
  | cons a l ih => simp only [List.flatMap_cons, List.foldlM_append, List.foldlM_cons, ih]

theorem visit_eq (shape : Shape) (step : β → Index → m β) (acc : β) :
    visit shape step acc = (indices shape).foldlM step acc := by
  induction shape generalizing step acc with
  | nil => simp [visit, indices]
  | cons n rest ih =>
      simp only [visit, countUp_eq, indices, foldlM_flatMap, ih, List.foldlM_map,
        List.range_eq_range']

theorem foldIndices_eq (shape : Shape) (step : β → Index → m β) (acc : β) :
    foldIndices shape step acc = (indices shape).foldlM step acc := by
  unfold foldIndices
  split
  next hzero =>
      rw [indices_eq_nil_iff.mpr (by simpa using hzero)]
      rfl
  next => exact visit_eq shape step acc

theorem collect_eq (shape : Shape) (f : Index → m β) :
    collect shape f = (·.toArray) <$> (indices shape).mapM f := by
  simp only [collect, foldIndices_eq, bind_pure_comp, List.foldlM_push_eq_append]
  simp

theorem mapM_congr {α : Type} {l : List α} {f g : α → m β} (h : ∀ a ∈ l, f a = g a) :
    l.mapM f = l.mapM g := by
  induction l with
  | nil => rfl
  | cons a l ih =>
      rw [List.mapM_cons, List.mapM_cons, h a (by simp),
        ih fun a ha => h a (by simp [ha])]

end TensorLogic.Shape
