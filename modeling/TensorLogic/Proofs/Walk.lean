import TensorLogic.Proofs.Cells

/-!
# The walk visits the list of indices

`Shape.indices` is the row-major order as a list, and a walk is the same order as a
cursor. What a cursor delivers at its step `k` is the entry at place `k` of the list,
and nothing once the list is used up (`Walk.advance_at`). Equality of tensors goes by
a walk; with all cells readable it is equality of shapes and of cells
(`Tensor.equal_eq_true`).
-/

namespace TensorLogic

namespace Shape

theorem getElem?_indices_cons {n i k : Nat} {shape : Shape} (hi : i < n)
    (hk : k < (indices shape).length) :
    (indices (n :: shape))[i * (indices shape).length + k]? =
      (indices shape)[k]?.map (i :: ·) := by
  rw [indices, Tensor.getElem?_flatMap_range (fun i => List.length_map _) hi hk,
    List.getElem?_map]

theorem getElem?_indices_zero {shape : Shape} (h : 0 ∉ shape) :
    (indices shape)[0]? = some (shape.map fun _ => 0) := by
  induction shape with
  | nil => rfl
  | cons n rest ih =>
      simp only [List.mem_cons, not_or] at h
      have hfirst := ih h.2
      have hlen := (List.getElem?_eq_some_iff.mp hfirst).1
      have hget := getElem?_indices_cons (n := n) (i := 0) (by omega) hlen
      rw [Nat.zero_mul, Nat.add_zero] at hget
      rw [hget, hfirst]
      rfl

/-- The index after the one at place `k` is the one at place `k + 1`. -/
theorem next?_eq {shape : Shape} {k : Nat} {index : Index}
    (h : (indices shape)[k]? = some index) :
    Index.next? shape index = (indices shape)[k + 1]? := by
  induction shape generalizing k index with
  | nil =>
      obtain ⟨hk, -⟩ := List.getElem?_eq_some_iff.mp h
      simp only [indices, List.length_singleton] at hk
      obtain rfl : k = 0 := by omega
      rfl
  | cons n rest ih =>
      have hmem := List.mem_of_getElem? h
      obtain ⟨i, behind, rfl⟩ :=
        List.exists_cons_of_length_eq_add_one (length_of_mem_indices hmem)
      obtain ⟨hi, hbehind⟩ := cons_mem_indices.mp hmem
      obtain ⟨j, hj⟩ := List.getElem?_of_mem hbehind
      have hjlt := (List.getElem?_eq_some_iff.mp hj).1
      have hplace : k = i * (indices rest).length + j := by
        refine (List.getElem?_inj (List.getElem?_eq_some_iff.mp h).1
          (nodup_indices (n :: rest))).mp ?_
        rw [h, getElem?_indices_cons hi hjlt, hj]
        rfl
      rw [hplace, Index.next?, ih hj]
      rcases Nat.lt_or_ge (j + 1) (indices rest).length with hlt | hge
      · rw [Nat.add_assoc, getElem?_indices_cons hi hlt, List.getElem?_eq_getElem hlt]
        rfl
      · rw [List.getElem?_eq_none hge]
        have hnext : i * (indices rest).length + j + 1 =
            (i + 1) * (indices rest).length := by
          rw [Nat.succ_mul]
          omega
        rw [hnext]
        by_cases hlast : i + 1 < n
        · have hzero : 0 ∉ rest := fun h0 => by
            rw [indices_eq_nil_iff.mpr h0] at hbehind
            cases hbehind
          have hget := getElem?_indices_cons hlast (Nat.zero_lt_of_lt hjlt)
          rw [Nat.add_zero] at hget
          rw [hget, getElem?_indices_zero hzero]
          simp [hlast, length_of_mem_indices hbehind]
        · obtain rfl : i + 1 = n := by omega
          rw [List.getElem?_eq_none]
          · simp
          · rw [length_indices, length_indices]
            exact Nat.le_refl _

end Shape

namespace Walk

/-- The walk has delivered the first `k` indices of the shape. -/
structure At (shape : Shape) (k : Nat) (w : Walk) : Prop where
  shape_eq : w.shape = shape
  start : w.phase = .start → k = 0 ∧ w.index = shape.map fun _ => 0
  inside : w.phase = .inside → ∃ j, k = j + 1 ∧ (Shape.indices shape)[j]? = some w.index
  finished : w.phase = .finished → (Shape.indices shape).length ≤ k

theorem at_ofShape (shape : Shape) : At shape 0 (ofShape shape) where
  shape_eq := rfl
  start _ := ⟨rfl, rfl⟩
  inside h := by cases h
  finished h := by cases h

theorem advance_at {shape : Shape} {k : Nat} {w : Walk} (h : At shape k w) :
    w.advance.1 = (Shape.indices shape)[k]? ∧ At shape (k + 1) w.advance.2 := by
  obtain ⟨whole, index, phase⟩ := w
  obtain ⟨rfl, hstart, hinside, hfinished⟩ := h
  cases phase with
  | start =>
      obtain ⟨rfl, hindex⟩ := hstart rfl
      simp only at hindex
      by_cases hzero : 0 ∈ whole
      · have hnil := Shape.indices_eq_nil_iff.mpr hzero
        simp only [advance, List.contains_iff_mem, hzero, if_true, hnil]
        exact ⟨rfl, rfl, nofun, nofun, fun _ => by rw [hnil]; exact Nat.zero_le _⟩
      · have hget := Shape.getElem?_indices_zero hzero
        simp only [advance, List.contains_iff_mem, hzero, if_false, hget, hindex]
        exact ⟨trivial, rfl, nofun, fun _ => ⟨0, rfl, hget⟩, nofun⟩
  | inside =>
      obtain ⟨j, rfl, hj⟩ := hinside rfl
      simp only [advance, Shape.next?_eq hj]
      cases hnext : (Shape.indices whole)[j + 1]? with
      | some next => exact ⟨rfl, rfl, nofun, fun _ => ⟨j + 1, rfl, hnext⟩, nofun⟩
      | none =>
          refine ⟨rfl, rfl, nofun, nofun, fun _ => ?_⟩
          have := List.getElem?_eq_none_iff.mp hnext
          omega
  | finished =>
      have hlen := hfinished rfl
      refine ⟨(List.getElem?_eq_none hlen).symm, rfl, nofun, nofun, fun _ => ?_⟩
      simp only at hlen ⊢
      omega

end Walk

namespace Tensor

variable {α : Type} [BEq α] {a b : Tensor α}

/-- Whether two cells agree at each index of a list. -/
def agreeOn (a b : Tensor α) : List Index → Except Fault Bool
  | [] => .ok true
  | index :: rest => do
      let x ← a.get index
      let y ← b.get index
      if x == y then agreeOn a b rest else .ok false

theorem agree_at {shape : Shape} {k : Nat} {w : Walk} (h : w.At shape k) (limit : Nat) :
    agree a b limit w = agreeOn a b ((shape.indices.drop k).take limit) := by
  induction limit generalizing k w with
  | zero => rfl
  | succ limit ih =>
      obtain ⟨hget, hnext⟩ := Walk.advance_at h
      rw [agree]
      cases hstep : w.advance with
      | mk next rest =>
          rw [hstep] at hget hnext
          simp only at hget hnext
          cases next with
          | none =>
              have hlen := List.getElem?_eq_none_iff.mp hget.symm
              rw [List.drop_eq_nil_of_le hlen]
              rfl
          | some index =>
              obtain ⟨hk, hindex⟩ := List.getElem?_eq_some_iff.mp hget.symm
              rw [List.drop_eq_getElem_cons hk, hindex, List.take_succ_cons, agreeOn]
              simp only [ih hnext]

/-- Equality of tensors, as a comparison along the list of indices. -/
theorem equal_eq (a b : Tensor α) :
    equal a b = if a.shape = b.shape then agreeOn a b a.shape.indices else .ok false := by
  rw [equal, agree_at (Walk.at_ofShape a.shape), List.drop_zero, ← Shape.length_indices,
    List.take_length]

/-- Every cell of the shape can be read. -/
def Readable (t : Tensor α) : Prop :=
  ∀ index ∈ t.shape.indices, ∃ cell, t.get index = .ok cell

omit [BEq α] in
theorem InBounds.readable {t : Tensor α} (h : t.InBounds) : t.Readable :=
  fun _ hindex => h.get_ok hindex

theorem agreeOn_ok {l : List Index} (ha : ∀ index ∈ l, ∃ x, a.get index = .ok x)
    (hb : ∀ index ∈ l, ∃ y, b.get index = .ok y) : ∃ answer, agreeOn a b l = .ok answer := by
  induction l with
  | nil => exact ⟨true, rfl⟩
  | cons index rest ih =>
      obtain ⟨x, hx⟩ := ha index List.mem_cons_self
      obtain ⟨y, hy⟩ := hb index List.mem_cons_self
      have hrest := ih (fun i hi => ha i (List.mem_cons_of_mem _ hi))
        (fun i hi => hb i (List.mem_cons_of_mem _ hi))
      rw [agreeOn, hx, hy]
      show ∃ answer, (if x == y then agreeOn a b rest else .ok false) = .ok answer
      split
      · exact hrest
      · exact ⟨false, rfl⟩

theorem agreeOn_eq_true_iff {l : List Index} :
    agreeOn a b l = .ok true ↔
      ∀ index ∈ l, ∃ x y, a.get index = .ok x ∧ b.get index = .ok y ∧ (x == y) = true := by
  induction l with
  | nil => simp [agreeOn]
  | cons index rest ih =>
      rw [agreeOn, List.forall_mem_cons, ← ih]
      constructor
      · intro h
        obtain ⟨x, hx, h⟩ := bind_eq_ok.mp h
        obtain ⟨y, hy, h⟩ := bind_eq_ok.mp h
        split at h
        next hxy => exact ⟨⟨x, y, hx, hy, hxy⟩, h⟩
        next => cases h
      · rintro ⟨⟨x, y, hx, hy, hxy⟩, hrest⟩
        refine bind_eq_ok.mpr ⟨x, hx, bind_eq_ok.mpr ⟨y, hy, ?_⟩⟩
        rwa [if_pos hxy]

theorem agreeOn_eq_true [LawfulBEq α] {l : List Index}
    (ha : ∀ index ∈ l, ∃ x, a.get index = .ok x) (hb : ∀ index ∈ l, ∃ y, b.get index = .ok y) :
    agreeOn a b l = .ok true ↔ ∀ index ∈ l, a.get index = b.get index := by
  rw [agreeOn_eq_true_iff]
  refine forall₂_congr fun index hindex => ?_
  obtain ⟨x, hx⟩ := ha index hindex
  obtain ⟨y, hy⟩ := hb index hindex
  simp [hx, hy]

theorem equal_ok (ha : a.Readable) (hb : b.Readable) : ∃ answer, equal a b = .ok answer := by
  rw [equal_eq]
  split
  next h => exact agreeOn_ok ha (h ▸ hb)
  next => exact ⟨false, rfl⟩

/-- Tensors compare equal if they have one shape and cells that compare equal. -/
theorem equal_eq_true_iff :
    equal a b = .ok true ↔
      a.shape = b.shape ∧ ∀ index ∈ a.shape.indices,
        ∃ x y, a.get index = .ok x ∧ b.get index = .ok y ∧ (x == y) = true := by
  rw [equal_eq]
  split
  next h => rw [agreeOn_eq_true_iff, and_iff_right h]
  next h => simp [h]

/-- Tensors are equal if they have one shape and the same cells. -/
theorem equal_eq_true [LawfulBEq α] (ha : a.Readable) (hb : b.Readable) :
    equal a b = .ok true ↔
      a.shape = b.shape ∧ ∀ index ∈ a.shape.indices, a.get index = b.get index := by
  rw [equal_eq]
  split
  next h =>
      have hb : ∀ index ∈ a.shape.indices, ∃ y, b.get index = .ok y := h ▸ hb
      rw [agreeOn_eq_true ha hb]
      exact (and_iff_right h).symm
  next h => simp [h]

end Tensor

end TensorLogic
